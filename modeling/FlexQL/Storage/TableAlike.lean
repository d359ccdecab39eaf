import FlexQL.Storage.StoreAlike
import FlexQL.Storage.TableSpec

/-!
# Tables that look alike

Insertions into two tables whose columns look alike go the same way. The columns of a table may
share files here, so nothing is said about the items.
-/

namespace FlexQL

open Fallible Runs

namespace Table

/-- Behind a step on two disks, bytes that were the same are the same. -/
def DisksKeep (disk disk' d d' : Disk) : Prop :=
  ∀ path, KeepsAgreement (disk.columns path) (disk'.columns path) (d.columns path) (d'.columns path)

/-- The files of the columns from `i` on agree on the pages in use. -/
def FilesAgree (t : Table) (i : ℕ) (disk disk' : Disk) : Prop :=
  ∀ (j : ℕ) column, i ≤ j → t.columns[j]? = some column →
    AgreeTo column.numPages (disk.columns column.filePath) (disk'.columns column.filePath)

/-- The columns of two tables look alike. -/
structure ColumnsAlike (t t' : Table) : Prop where
  schema_eq : t'.schema = t.schema
  columns : List.Forall₂ ColumnStore.Alike t.columns t'.columns

/-- The columns behind the same step on two tables that look alike. -/
structure Moved (t : Table) (i : ℕ) (disk disk' : Disk) (r r' : Table × Disk) : Prop where
  alike : ColumnsAlike r.1 r'.1
  agree : FilesAgree r.1 i r.2 r'.2
  keeps : DisksKeep disk disk' r.2 r'.2
  schema_eq : r.1.schema = t.schema
  paths_eq : r.1.columns.map ColumnStore.filePath = t.columns.map ColumnStore.filePath
  outside : ∀ path ∉ t.columns.map ColumnStore.filePath, r.2.columns path = disk.columns path

/-- A step that inserts into the columns from `i` to `k` and leaves the indexes alone. -/
structure ColumnsMoved (t t' : Table) (i k : ℕ) (disk disk' : Disk) (r r' : Table × Disk) : Prop
    extends Moved t i disk disk' r r' where
  others : ∀ j, j < i ∨ k ≤ j → r.1.columns[j]? = t.columns[j]?
  pages : ∀ (j : ℕ) column, i ≤ j → j < k → r.1.columns[j]? = some column → 0 < column.numPages
  index_eq : r.1.indexManager = t.indexManager
  index_eq' : r'.1.indexManager = t'.indexManager

/-- The fault says that the file of one of the columns from `i` on is full. -/
def FileFull (t : Table) (i : ℕ) (f : Fault) : Prop :=
  f = .unmapped ∧ ∃ (j : ℕ) (column : ColumnStore), i ≤ j ∧ t.columns[j]? = some column ∧
    column.numPages = mappedPages

variable {t t' : Table} {disk disk' : Disk}

theorem DisksKeep.filesAgree {i : ℕ} {d d' : Disk} (h : DisksKeep disk disk' d d')
    (hagree : FilesAgree t i disk disk') : FilesAgree t i d d' :=
  fun j column hj hcolumn => (h column.filePath).agreeTo (hagree j column hj hcolumn)

theorem DisksKeep.trans {d₁ d₁' d₂ d₂' : Disk} (h : DisksKeep disk disk' d₁ d₁')
    (h' : DisksKeep d₁ d₁' d₂ d₂') : DisksKeep disk disk' d₂ d₂' :=
  fun path a ha => h' path a (h path a ha)

theorem DisksKeep.setColumn {path : Text} {m m' : ByteMemory}
    (h : KeepsAgreement (disk.columns path) (disk'.columns path) m m') :
    DisksKeep disk disk' (disk.setColumn path m) (disk'.setColumn path m') := by
  intro path'
  by_cases hpath : path' = path
  · subst hpath
    rw [Disk.setColumn_same, Disk.setColumn_same]
    exact h
  · rw [Disk.setColumn_ne _ hpath, Disk.setColumn_ne _ hpath]
    exact fun _ ha => ha

theorem ColumnsAlike.refl (h : ∀ column ∈ t.columns, column.InUse) : ColumnsAlike t t where
  schema_eq := rfl
  columns := by
    rw [List.forall₂_same]
    exact fun column hcolumn => (h column hcolumn).alike

theorem FilesAgree.refl (t : Table) (i : ℕ) (disk : Disk) : FilesAgree t i disk disk :=
  fun _ _ _ _ _ _ => rfl

theorem forall₂_set {α β : Type} {R : α → β → Prop} {l : List α} {l' : List β}
    (h : List.Forall₂ R l l') {a : α} {b : β} (hab : R a b) (i : ℕ) :
    List.Forall₂ R (l.set i a) (l'.set i b) := by
  induction h generalizing i with
  | nil => exact .nil
  | cons hx hrest ih =>
    cases i with
    | zero => exact .cons hab hrest
    | succ i => exact .cons hx (ih i)

theorem ColumnsAlike.exists_column (h : ColumnsAlike t t') {i : ℕ} {column : ColumnStore}
    (hcolumn : t.columns[i]? = some column) :
    ∃ column', t'.columns[i]? = some column' ∧ column.Alike column' := by
  obtain ⟨hi, rfl⟩ := List.getElem?_eq_some_iff.mp hcolumn
  have hi' : i < t'.columns.length := h.columns.length_eq ▸ hi
  exact ⟨_, List.getElem?_eq_getElem hi', h.columns.get hi hi'⟩

/-- Appending a value to one column of each table. -/
theorem ColumnsAlike.insertColumn (h : ColumnsAlike t t') {i : ℕ}
    (hagree : FilesAgree t i disk disk') (hi : i < t.columns.length) (v : Value) :
    Lockstep (FileFull t i) (ColumnsMoved t t' i (i + 1) disk disk') (t.insertColumn disk i v)
      (t'.insertColumn disk' i v) := by
  have hcolumn := List.getElem?_eq_getElem hi
  obtain ⟨column', hcolumn', halike⟩ := h.exists_column hcolumn
  generalize t.columns[i] = column at hcolumn halike
  have hsound : (SlotFormat.fixed v.bytes.length).Sound := v.bytes_length ▸ itemFormat_sound v.type
  rcases halike.insertItem hsound (hagree i column le_rfl hcolumn) le_rfl with ⟨hfull, herr, herr'⟩ |
    ⟨⟨u, n⟩, ⟨u', n'⟩, hok, hok', hboth⟩
  · have hleft : t.insertColumn disk i v = .error .unmapped := by
      simp only [Table.insertColumn, hcolumn, ColumnStore.insertFixed, herr, Bind.bind, Except.bind]
    have hright : t'.insertColumn disk' i v = .error .unmapped := by
      rw [← halike.filePath_eq] at herr'
      simp only [Table.insertColumn, hcolumn', ColumnStore.insertFixed, herr', Bind.bind,
        Except.bind]
    rw [hleft, hright]
    exact .error ⟨rfl, i, column, le_rfl, hcolumn, hfull⟩
  · have hleft : t.insertColumn disk i v =
        .ok ({ t with columns := t.columns.set i u }, disk.setColumn u.filePath n) := by
      simp only [Table.insertColumn, hcolumn, ColumnStore.insertFixed, hok, Bind.bind, Except.bind,
        Pure.pure, Except.pure]
    have hright : t'.insertColumn disk' i v =
        .ok ({ t' with columns := t'.columns.set i u' }, disk'.setColumn u.filePath n') := by
      rw [← hboth.alike.filePath_eq]
      rw [← halike.filePath_eq] at hok'
      simp only [Table.insertColumn, hcolumn', ColumnStore.insertFixed, hok', Bind.bind,
        Except.bind, Pure.pure, Except.pure]
    rw [hleft, hright]
    have hkeeps : DisksKeep disk disk' (disk.setColumn u.filePath n)
        (disk'.setColumn u.filePath n') := by
      apply DisksKeep.setColumn
      rw [hboth.filePath_eq]
      exact hboth.keeps
    have hself : (t.columns.set i u)[i]? = some u := List.getElem?_set_self hi
    refine .ok ⟨⟨⟨h.schema_eq, forall₂_set h.columns hboth.alike i⟩, ?_, hkeeps, rfl, ?_, ?_⟩, ?_,
      ?_, rfl, rfl⟩
    · intro j c hj hc
      rcases Nat.eq_or_lt_of_le hj with rfl | hlt
      · obtain rfl : u = c := Option.some.inj (hself.symm.trans hc)
        rw [Disk.setColumn_same, Disk.setColumn_same]
        exact hboth.agree
      · rw [List.getElem?_set_ne (by omega)] at hc
        exact hkeeps.filesAgree hagree j c hj hc
    · exact paths_set hcolumn hboth.filePath_eq
    · intro path hpath
      refine Disk.setColumn_ne _ fun heq => hpath ?_
      rw [heq, hboth.filePath_eq]
      exact List.mem_map_of_mem (List.mem_of_getElem? hcolumn)
    · intro j hj
      exact List.getElem?_set_ne (by omega)
    · intro j c hj hj' hc
      obtain rfl : i = j := by omega
      obtain rfl : u = c := Option.some.inj (hself.symm.trans hc)
      exact hboth.numPages_pos

theorem Moved.length_eq {i : ℕ} {r r' : Table × Disk} (h : Moved t i disk disk' r r') :
    r.1.columns.length = t.columns.length := by
  simpa using congrArg List.length h.paths_eq

theorem ColumnsMoved.refl {i k : ℕ} (h : ColumnsAlike t t') (hagree : FilesAgree t i disk disk')
    (hk : ∀ (j : ℕ) column, i ≤ j → j < k → t.columns[j]? = some column → 0 < column.numPages) :
    ColumnsMoved t t' i k disk disk' (t, disk) (t', disk') :=
  ⟨⟨h, hagree, fun _ _ ha => ha, rfl, rfl, fun _ _ => rfl⟩, fun _ _ => rfl, hk, rfl, rfl⟩

/-- First some columns, then those behind them. -/
theorem ColumnsMoved.trans {i k l : ℕ} (hik : i ≤ k) (hkl : k ≤ l) {r r' u u' : Table × Disk}
    (h : ColumnsMoved t t' i k disk disk' r r')
    (h' : ColumnsMoved r.1 r'.1 k l r.2 r'.2 u u') : ColumnsMoved t t' i l disk disk' u u' where
  alike := h'.alike
  agree := fun j column hj hcolumn => by
    rcases Nat.lt_or_ge j k with hlt | hge
    · rw [h'.others j (Or.inl hlt)] at hcolumn
      exact h'.keeps.filesAgree h.agree j column hj hcolumn
    · exact h'.agree j column hge hcolumn
  keeps := h.keeps.trans h'.keeps
  schema_eq := h'.schema_eq.trans h.schema_eq
  paths_eq := h'.paths_eq.trans h.paths_eq
  outside := fun path hpath =>
    (h'.outside path (h.paths_eq ▸ hpath)).trans (h.outside path hpath)
  others := fun j hj => (h'.others j (by omega)).trans (h.others j (by omega))
  pages := fun j column hj hl hcolumn => by
    rcases Nat.lt_or_ge j k with hlt | hge
    · rw [h'.others j (Or.inl hlt)] at hcolumn
      exact h.pages j column hj hlt hcolumn
    · exact h'.pages j column hge hl hcolumn
  index_eq := h'.index_eq.trans h.index_eq
  index_eq' := h'.index_eq'.trans h.index_eq'

/-- The loop of `insert_row` on both tables. -/
theorem ColumnsAlike.insertColumns (h : ColumnsAlike t t') {i : ℕ}
    (hagree : FilesAgree t i disk disk') (hlen : t.columns.length = t.schema.length)
    (values : List Value) :
    Lockstep (FileFull t i) (ColumnsMoved t t' i (i + values.length) disk disk')
      (t.insertColumns disk i values) (t'.insertColumns disk' i values) := by
  induction values generalizing t t' disk disk' i with
  | nil => exact .ok (.refl h hagree fun j _ hj hj' => absurd hj (by simpa using hj'))
  | cons v values ih =>
    simp only [Table.insertColumns, h.schema_eq]
    by_cases hi : i < t.schema.length
    · rw [if_pos hi, if_pos hi]
      refine (h.insertColumn hagree (hlen.symm ▸ hi) v).bind fun r r' hmoved => ?_
      have hlen' : r.1.columns.length = r.1.schema.length := by
        rw [hmoved.length_eq, hlen, hmoved.schema_eq]
      have hagree' : FilesAgree r.1 (i + 1) r.2 r'.2 := fun j column hj =>
        hmoved.agree j column (by omega)
      have hrest := ih hmoved.alike hagree' hlen'
      rw [Nat.add_right_comm, Nat.add_assoc] at hrest
      refine hrest.mono ?_ fun u u' hu => hmoved.trans (by omega) (by simp) hu
      rintro f ⟨hf, j, column, hj, hcolumn, hfull⟩
      rw [hmoved.others j (Or.inr hj)] at hcolumn
      exact ⟨hf, j, column, by omega, hcolumn, hfull⟩
    · rw [if_neg hi, if_neg hi]
      refine .ok (.refl h hagree fun j column hj _ hcolumn => ?_)
      have := (List.getElem?_eq_some_iff.mp hcolumn).1
      omega

/-! ## Sound tables -/

/-- What every table of an executor satisfies: its columns are in use as they should be, and its
index is one that insertions have built. -/
structure Sound (t : Table) : Prop where
  schema_ne : t.schema ≠ []
  length_eq : t.columns.length = t.schema.length
  inUse : ∀ column ∈ t.columns, column.InUse
  index : ∃ es, IndexHolds t es

theorem ColumnsAlike.inUse (h : ColumnsAlike t t') : ∀ column ∈ t.columns, column.InUse := by
  intro column hcolumn
  obtain ⟨i, hi⟩ := List.getElem?_of_mem hcolumn
  obtain ⟨column', -, halike⟩ := h.exists_column hi
  exact halike.inUse

theorem init_sound (dataDir name : Text) {schema : Schema} {disk : Disk}
    (h : init dataDir name schema disk = .ok t) : t.Sound := by
  have hne := schema_ne_of_init h
  obtain ⟨m, rfl, hindex, -⟩ := init_cases h
  refine ⟨hne, by simp, ?_, ⟨_, hindex⟩⟩
  intro column hcolumn
  obtain ⟨d, -, rfl⟩ := List.mem_map.mp hcolumn
  exact ⟨Nat.zero_le _, Or.inl rfl⟩

theorem Sound.clear (h : t.Sound) : t.clear.Sound := by
  refine ⟨h.schema_ne, (List.length_map _).trans h.length_eq, ?_, h.index⟩
  intro column hcolumn
  obtain ⟨c, -, rfl⟩ := List.mem_map.mp hcolumn
  exact ⟨Nat.zero_le _, Or.inl rfl⟩

theorem Sound.nextRid (h : t.Sound) : ∃ rid, t.nextRid = .ok rid := by
  have hpos : 0 < t.columns.length := h.length_eq ▸ List.length_pos_iff.mpr h.schema_ne
  exact ⟨_, by rw [Table.nextRid, List.getElem?_eq_getElem hpos]⟩

/-- Something was inserted into the first column. -/
def Started (t : Table) : Prop := ∃ column, t.columns[0]? = some column ∧ 0 < column.numPages

/-- A table behind insertions. -/
structure Grown (t : Table) (disk : Disk) (r : Table × Disk) : Prop where
  sound : r.1.Sound
  schema_eq : r.1.schema = t.schema
  paths_eq : r.1.columns.map ColumnStore.filePath = t.columns.map ColumnStore.filePath
  outside : ∀ path ∉ t.columns.map ColumnStore.filePath, r.2.columns path = disk.columns path
  index_eq : ¬ t.HasIndex → r.1.indexManager = t.indexManager
  /-- A row of a table with an index has a value for the first column. -/
  started : t.HasIndex → r = (t, disk) ∨ r.1.Started

theorem Grown.refl (h : t.Sound) (disk : Disk) : Grown t disk (t, disk) :=
  ⟨h, rfl, rfl, fun _ _ => rfl, fun _ => rfl, fun _ => Or.inl rfl⟩

theorem hasIndex_congr (h : t'.schema = t.schema) : t'.HasIndex ↔ t.HasIndex := by
  rw [HasIndex, HasIndex, h]

theorem Grown.trans {r u : Table × Disk} (h : Grown t disk r) (h' : Grown r.1 r.2 u) :
    Grown t disk u where
  sound := h'.sound
  schema_eq := h'.schema_eq.trans h.schema_eq
  paths_eq := h'.paths_eq.trans h.paths_eq
  outside := fun path hpath =>
    (h'.outside path (h.paths_eq ▸ hpath)).trans (h.outside path hpath)
  index_eq := fun hno =>
    (h'.index_eq ((hasIndex_congr h.schema_eq).not.mpr hno)).trans (h.index_eq hno)
  started := fun hid => by
    rcases h'.started ((hasIndex_congr h.schema_eq).mpr hid) with heq | hstarted
    · rw [heq]
      exact h.started hid
    · exact Or.inr hstarted

/-- The last part of `insert_row` needs a value for the key, and room in the index. -/
theorem insertKey_ends (row : Row) (rid : ℕ) (hne : t.schema ≠ []) {es : List (ℕ × ℕ)}
    (hindex : IndexHolds t es) :
    Ends (fun f => row.values ≠ [] → f = .unmapped)
      (fun u => u.columns = t.columns ∧ u.schema = t.schema ∧ (∃ es', IndexHolds u es') ∧
        (¬ t.HasIndex → u.indexManager = t.indexManager) ∧ (t.HasIndex → row.values ≠ []))
      (t.insertKey row rid) := by
  obtain ⟨d, schema, hschema⟩ := List.exists_cons_of_ne_nil hne
  have hiff : t.HasIndex ↔ d.name = idName := by simp [HasIndex, hschema]
  by_cases hid : t.HasIndex
  · by_cases hrow : row.values = []
    · simp only [insertKey, hschema, if_pos (hiff.mp hid), hrow]
      exact .error fun hne' => absurd rfl hne'
    · rcases insertKey_spec rid hne hindex hrow with herr | ⟨u, hu, hcolumns, hschema', -, hindex'⟩
      · rw [herr]
        exact .error fun _ => rfl
      · rw [hu]
        exact .ok ⟨hcolumns, hschema', ⟨_, hindex'⟩, fun hno => absurd hid hno, fun _ => hrow⟩
  · simp only [insertKey, hschema, if_neg (hiff.not.mp hid)]
    exact .ok ⟨rfl, hschema, ⟨es, hindex⟩, fun _ => rfl, fun hid' => absurd hid' hid⟩

/-- `insert_row` keeps a table sound. With a value for the key, it can only run over the end of a
file. -/
theorem Sound.insertRow (h : t.Sound) (disk : Disk) (row : Row) :
    Ends (fun f => row.values ≠ [] → f = .unmapped) (Grown t disk) (t.insertRow disk row) := by
  obtain ⟨rid, hrid⟩ := h.nextRid
  obtain ⟨es, hindex⟩ := h.index
  have hcolumns := ((ColumnsAlike.refl h.inUse).insertColumns (FilesAgree.refl t 0 disk) h.length_eq
    row.values).ends
  rw [Table.insertRow, hrid]
  refine (hcolumns.mono (fun f hf _ => hf.1) fun r hr => hr).bind ?_
  rintro ⟨v, d'⟩ hr
  have hv : v.schema = t.schema := hr.schema_eq
  have hm : v.indexManager = t.indexManager := hr.index_eq
  have hlen : v.columns.length = t.columns.length := hr.length_eq
  have hindex' : IndexHolds v es := by simpa only [IndexHolds, HasIndex, hv, hm] using hindex
  refine (insertKey_ends row rid (hv ▸ h.schema_ne) hindex').bind ?_
  rintro u ⟨hucolumns, huschema, hes, hno, hyes⟩
  refine .ok ⟨⟨?_, ?_, ?_, hes⟩, huschema.trans hv, hucolumns ▸ hr.paths_eq, hr.outside, ?_, ?_⟩
  · rw [huschema, hv]
    exact h.schema_ne
  · rw [hucolumns, huschema, hlen, hv, h.length_eq]
  · rw [hucolumns]
    exact hr.alike.inUse
  · exact fun hid => (hno ((hasIndex_congr hv).not.mpr hid)).trans hm
  · intro hid
    have hpos : 0 < v.columns.length := by
      rw [hlen, h.length_eq]
      exact List.length_pos_iff.mpr h.schema_ne
    have hvalues := List.length_pos_iff.mpr (hyes ((hasIndex_congr hv).mpr hid))
    have hcolumn := List.getElem?_eq_getElem hpos
    refine Or.inr ⟨_, (congrArg (fun l : List ColumnStore => l[0]?) hucolumns).trans hcolumn, ?_⟩
    exact hr.pages 0 _ le_rfl (by rwa [Nat.zero_add]) hcolumn

/-- Rows with a value for the key are inserted, or the files are too small for them. -/
theorem Sound.run_insertRow (h : t.Sound) (disk : Disk) {rows : List Row}
    (hrows : ∀ row ∈ rows, row.values ≠ []) :
    Ends (fun f => f = .unmapped) (Grown t disk) (run insertStep (t, disk) rows) := by
  induction rows generalizing t disk with
  | nil => exact .ok (.refl h disk)
  | cons row rows ih =>
    have hrow := h.insertRow disk row
    cases hr : t.insertRow disk row with
    | error f =>
      rw [hr] at hrow
      simp only [run, insertStep, hr]
      cases hrow with
      | error hf => exact .error (hf (hrows row List.mem_cons_self))
    | ok r =>
      rw [hr] at hrow
      have hgrown := hrow.of_ok
      rw [run_cons_of_ok rows hr]
      exact (ih hgrown.sound r.2 fun row' hrow' => hrows row' (List.mem_cons_of_mem _ hrow')).mono
        (fun _ hf => hf) fun r' hr' => hgrown.trans hr'

/-! ## Rows -/

/-- The tables look alike and have the same index. -/
structure Alike (t t' : Table) : Prop where
  columns : ColumnsAlike t t'
  length_eq : t.columns.length = t.schema.length
  index_eq : t'.indexManager = t.indexManager

theorem ColumnsAlike.nextRid (h : ColumnsAlike t t') : t.nextRid = t'.nextRid := by
  cases hcolumn : t.columns[0]? with
  | none =>
    have hcolumn' : t'.columns[0]? = none := by
      rw [List.getElem?_eq_none_iff] at hcolumn ⊢
      rwa [← h.columns.length_eq]
    simp only [Table.nextRid, hcolumn, hcolumn']
  | some column =>
    obtain ⟨column', hcolumn', halike⟩ := h.exists_column hcolumn
    simp only [Table.nextRid, hcolumn, hcolumn', ColumnStore.getTotalRows, halike.totalRows_eq]

/-- The index behind an insertion, which depends on nothing but the index. -/
def indexAfter (schema : Schema) (m : IndexManager) (row : Row) (rid : ℕ) :
    Except Fault IndexManager :=
  (insertKey ⟨[], schema, [], m⟩ row rid).map Table.indexManager

theorem insertKey_eq (t : Table) (row : Row) (rid : ℕ) :
    t.insertKey row rid = (indexAfter t.schema t.indexManager row rid).map fun m =>
      { t with indexManager := m } := by
  simp only [indexAfter, insertKey]
  split
  · rfl
  · split
    · split
      · rfl
      · split
        · rfl
        · rename_i tree _
          cases tree.insert _ rid <;> rfl
    · rfl

/-- `insert_row` on both tables. -/
theorem Alike.insertRow (h : Alike t t') (hagree : FilesAgree t 0 disk disk') (row : Row) :
    Lockstep (fun _ => True) (fun r r' => Moved t 0 disk disk' r r' ∧ Alike r.1 r'.1)
      (t.insertRow disk row) (t'.insertRow disk' row) := by
  have hcolumns := h.columns.insertColumns hagree h.length_eq row.values
  simp only [Table.insertRow, ← h.columns.nextRid]
  cases t.nextRid with
  | error f => exact .error trivial
  | ok rid =>
    refine (hcolumns.mono (fun _ _ => trivial) fun r r' hr => hr).bind ?_
    rintro ⟨u, d⟩ ⟨u', d'⟩ hr
    have hschema : u.schema = t.schema := hr.schema_eq
    have hschema' : u'.schema = u.schema := hr.alike.schema_eq
    have hm : u.indexManager = t.indexManager := hr.index_eq
    have hm' : u'.indexManager = t.indexManager := hr.index_eq'.trans h.index_eq
    simp only [insertKey_eq, hschema', hm, hm']
    cases indexAfter u.schema t.indexManager row rid with
    | error f => exact .error trivial
    | ok m =>
      have hlen : u.columns.length = u.schema.length := by
        rw [hschema, ← h.length_eq]
        exact hr.length_eq
      exact .ok ⟨⟨⟨rfl, hr.alike.columns⟩, hr.agree, hr.keeps, hr.schema_eq, hr.paths_eq,
        hr.outside⟩, ⟨⟨rfl, hr.alike.columns⟩, hlen, rfl⟩⟩

end Table

end FlexQL
