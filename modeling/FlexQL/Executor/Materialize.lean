import FlexQL.Executor.Executor
import FlexQL.Lib.Fallible
import FlexQL.Storage.TableSpec

/-!
# Reading rows back

`materialize_row` reads from each column with the size of its type. For columns of decimals and of
texts that is the size with which the items were written, so a row is read as it was stored: a
number as it is, a text up to its first zero byte and at most 127 bytes of it.
-/

namespace FlexQL

open ByteMemory Text

/-- What can be read of a value that was stored. -/
def Value.stored (p : Platform) (v : Value) : Value :=
  match v.type with
  | .varchar => ⟨.varchar, p.uninitialised, (cStr v.str).take 127⟩
  | type => ⟨type, v.bits, []⟩

/-- A column that is read with the size with which it is written. -/
def ColumnType.Readable (type : ColumnType) : Prop := type.itemSize = type.readSize

/-- A row with one value for each column, of the type of that column. -/
def RowFull (schema : Schema) (row : Row) : Prop :=
  row.values.map Value.type = schema.map ColumnDef.type

theorem RowFull.length_eq {schema : Schema} {row : Row} (h : RowFull schema row) :
    row.values.length = schema.length := by
  simpa using congrArg List.length h

/-- The value for a column. -/
theorem RowFull.exists_value {schema : Schema} {row : Row} (h : RowFull schema row) {c : ℕ}
    {d : ColumnDef} (hd : schema[c]? = some d) :
    ∃ v, row.values[c]? = some v ∧ v.type = d.type := by
  have htypes : (row.values.map Value.type)[c]? = (schema.map ColumnDef.type)[c]? := by rw [h]
  rw [List.getElem?_map, List.getElem?_map, hd, Option.map_some] at htypes
  exact Option.map_eq_some_iff.mp htypes

/-- A row begins with a value of the type of the first column. -/
theorem RowFull.exists_head {d : ColumnDef} {schema : Schema} {row : Row}
    (h : RowFull (d :: schema) row) : ∃ x values, row.values = x :: values ∧ x.type = d.type := by
  obtain ⟨x, values, hvalues, htype, -⟩ := List.map_eq_cons_iff.mp h
  exact ⟨x, values, hvalues, htype⟩

theorem RowFull.rowFits {schema : Schema} {row : Row} (h : RowFull schema row) (hne : schema ≠ []) :
    Table.RowFits schema row := by
  have hlen := h.length_eq
  refine ⟨?_, fun j v hv => ?_⟩
  · intro hnil
    rw [hnil, List.length_nil] at hlen
    exact hne (List.length_eq_zero_iff.mp hlen.symm)
  · obtain ⟨hj, -⟩ := List.getElem?_eq_some_iff.mp hv
    have hd := List.getElem?_eq_getElem (hlen ▸ hj : j < schema.length)
    refine ⟨_, by rwa [Nat.zero_add], ?_⟩
    have htypes : (row.values.map Value.type)[j]? = (schema.map ColumnDef.type)[j]? := by rw [h]
    rw [List.getElem?_map, List.getElem?_map, hv, hd] at htypes
    exact Option.some.inj htypes

theorem cStr_append_zero (s : Text) (n : ℕ) (hs : ∀ b ∈ s, b ≠ 0) (hn : 0 < n) :
    cStr (s ++ List.replicate n 0) = s := by
  obtain ⟨m, rfl⟩ := Nat.exists_eq_add_of_lt hn
  unfold cStr
  rw [List.takeWhile_append_of_pos (by simpa using hs), Nat.zero_add, List.replicate_succ,
    List.takeWhile_cons_of_neg (by simp), List.append_nil]

theorem cStr_strBytes (s : Text) : cStr (Value.strBytes s) = (cStr s).take 127 := by
  have hlen : ((cStr s).take 127).length ≤ 127 := List.length_take_le _ _
  refine cStr_append_zero _ _ (fun b hb => ?_) (by omega)
  simpa using List.mem_takeWhile_imp (List.mem_of_mem_take hb)

theorem decode_encode_bits (bits : BitVec 64) :
    BitVec.ofNat 64 (decode (encode 8 bits.toNat)) = bits := by
  rw [decode_encode bits.isLt, BitVec.ofNat_toNat, BitVec.setWidth_eq]

namespace Executor

open Table

variable {p : Platform} {t : Table} {disk : Disk} {contents : Contents}

/-- A readable column is read as a list. -/
theorem readAt_eq (h : Table.Holds t disk contents) {i : ℕ} {d : ColumnDef}
    (hd : t.schema[i]? = some d) (rid : ℕ) :
    t.readAt disk i rid d.type.itemSize = .ok (contents i)[rid]? := by
  obtain ⟨column, hcolumn, hc⟩ := h.exists_column hd
  obtain ⟨cache, hread, -⟩ := ColumnReader.readAt_eq (itemFormat_sound d.type) hc.holds.pages
    hc.size_eq rid
  simp only [Table.readAt, getColumn, hcolumn, hread, Bind.bind, Except.bind, Pure.pure,
    Except.pure]

theorem totalRows_eq (h : Table.Holds t disk contents) {i : ℕ} {d : ColumnDef}
    (hd : t.schema[i]? = some d) : t.totalRows i = .ok (contents i).length := by
  obtain ⟨column, hcolumn, hc⟩ := h.exists_column hd
  simp only [Table.totalRows, getColumn, hcolumn, ColumnStore.getTotalRows, hc.holds.totalRows_eq]

/-- A stored value of a readable column is read back. -/
theorem materializeValue_eq (h : Table.Holds t disk contents) {i rid : ℕ} {d : ColumnDef}
    (hd : t.schema[i]? = some d) (hread : d.type.Readable) {v : Value} (hv : v.type = d.type)
    (hitem : (contents i)[rid]? = some v.bytes) :
    materializeValue p t disk rid d.type i = .ok (v.stored p) := by
  have hbuf := readAt_eq h hd rid
  rw [hread, hitem] at hbuf
  simp only [materializeValue, hbuf, Bind.bind, Except.bind, Pure.pure, Except.pure]
  rw [← hv] at hread ⊢
  unfold Value.stored Value.bytes
  cases htype : v.type with
  | varchar => simp only [if_true, cStr_strBytes]
  | int => rw [htype] at hread; cases hread
  | float => rw [htype] at hread; cases hread
  | decimal => simp only [reduceCtorEq, if_false, decode_encode_bits]
  | char => simp only [reduceCtorEq, if_false, decode_encode_bits]
  | datetime => simp only [reduceCtorEq, if_false, decode_encode_bits]

theorem materializeFrom_eq (h : Table.Holds t disk contents) {rid : ℕ} {schema : Schema} {c : ℕ}
    {values : List Value} (hschema : ∀ (j : ℕ) d, schema[j]? = some d → t.schema[c + j]? = some d)
    (hread : ∀ d ∈ schema, d.type.Readable)
    (htypes : values.map Value.type = schema.map ColumnDef.type)
    (hitems : ∀ (j : ℕ) v, values[j]? = some v → (contents (c + j))[rid]? = some v.bytes) :
    materializeFrom p t disk rid schema c = .ok (values.map (Value.stored p)) := by
  induction schema generalizing c values with
  | nil =>
    obtain rfl : values = [] := by simpa using htypes
    rfl
  | cons d schema ih =>
    obtain ⟨v, values, rfl⟩ : ∃ v vs, values = v :: vs := by
      cases values with
      | nil => simp at htypes
      | cons v vs => exact ⟨v, vs, rfl⟩
    rw [List.map_cons, List.map_cons, List.cons.injEq] at htypes
    have hvalue := materializeValue_eq (p := p) h (hschema 0 d rfl)
      (hread d List.mem_cons_self) htypes.1 (hitems 0 v rfl)
    have hschema' : ∀ (j : ℕ) d', schema[j]? = some d' → t.schema[c + 1 + j]? = some d' := by
      intro j d' hd'
      rw [Nat.add_right_comm, Nat.add_assoc]
      exact hschema (j + 1) d' hd'
    have hitems' : ∀ (j : ℕ) w, values[j]? = some w →
        (contents (c + 1 + j))[rid]? = some w.bytes := by
      intro j w hw
      rw [Nat.add_right_comm, Nat.add_assoc]
      exact hitems (j + 1) w hw
    have hrest := ih hschema' (fun d' hd' => hread d' (List.mem_cons_of_mem _ hd')) htypes.2 hitems'
    rw [Nat.add_zero] at hvalue
    simp only [materializeFrom, hvalue, hrest, Bind.bind, Except.bind, Pure.pure, Except.pure,
      List.map_cons]

/-- Each value of a row comes from its column. -/
theorem materializeFrom_getElem? {rid : ℕ} {schema : Schema} {c j : ℕ} {d : ColumnDef} {values : List Value}
    (h : materializeFrom p t disk rid schema c = .ok values) (hd : schema[j]? = some d) :
    ∃ v, values[j]? = some v ∧ materializeValue p t disk rid d.type (c + j) = .ok v := by
  induction schema generalizing c j values with
  | nil => simp at hd
  | cons d' schema ih =>
    obtain ⟨v, hv, h⟩ := Fallible.bind_eq_ok h
    obtain ⟨vs, hvs, h⟩ := Fallible.bind_eq_ok h
    cases h
    cases j with
    | zero =>
      obtain rfl : d' = d := by simpa using hd
      exact ⟨v, rfl, hv⟩
    | succ j =>
      obtain ⟨w, hw, hread⟩ := ih hvs (by simpa using hd)
      exact ⟨w, by simpa using hw, by rwa [Nat.add_right_comm, Nat.add_assoc] at hread⟩

theorem columnItems_getElem? {rows : List Row} {c : ℕ}
    (hrows : ∀ row ∈ rows, c < row.values.length) (rid : ℕ) :
    (columnItems rows c)[rid]? = rows[rid]?.bind fun row => row.values[c]?.map Value.bytes := by
  induction rows generalizing rid with
  | nil => simp [columnItems]
  | cons row rows ih =>
    have hv := List.getElem?_eq_getElem (hrows row List.mem_cons_self)
    have hrest := ih fun r hr => hrows r (List.mem_cons_of_mem _ hr)
    unfold columnItems at hrest ⊢
    rw [List.filterMap_cons, hv, Option.map_some]
    cases rid with
    | zero => simp [hv]
    | succ rid => simpa using hrest rid

/-- The rows of a table with readable columns are read back. -/
theorem materializeRow_eq {rows : List Row} {es : List (ℕ × ℕ)}
    (h : HoldsRows t disk rows es)
    (hread : ∀ d ∈ t.schema, d.type.Readable) (hfull : ∀ row ∈ rows, RowFull t.schema row)
    {rid : ℕ} {row : Row} (hrow : rows[rid]? = some row) :
    materializeRow p t disk rid = .ok ⟨row.values.map (Value.stored p)⟩ := by
  have hmem := List.mem_of_getElem? hrow
  have hvalues : materializeFrom p t disk rid t.schema 0 = .ok (row.values.map (Value.stored p)) := by
    refine materializeFrom_eq h.columns (fun j d hd => by rwa [Nat.zero_add]) hread
      (hfull row hmem) fun j v hv => ?_
    have hj := (List.getElem?_eq_some_iff.mp hv).1
    rw [Nat.zero_add, columnItems_getElem? _ rid, hrow, Option.bind_some, hv, Option.map_some]
    intro r hr
    rwa [(hfull r hr).length_eq, ← (hfull row hmem).length_eq]
  simp only [materializeRow, hvalues, Bind.bind, Except.bind, Pure.pure, Except.pure]

theorem materializeRows_eq {rows : List Row} {es : List (ℕ × ℕ)}
    (h : HoldsRows t disk rows es)
    (hread : ∀ d ∈ t.schema, d.type.Readable) (hfull : ∀ row ∈ rows, RowFull t.schema row) :
    materializeRows p t disk (List.range rows.length) =
      .ok (rows.map fun row => ⟨row.values.map (Value.stored p)⟩) := by
  have hloop : ∀ n k, k + n = rows.length → materializeRows p t disk (List.range' k n) =
      .ok ((rows.drop k).map fun row => ⟨row.values.map (Value.stored p)⟩) := by
    intro n
    induction n with
    | zero =>
      intro k hk
      rw [List.drop_of_length_le (by omega)]
      rfl
    | succ n ih =>
      intro k hk
      have hlt : k < rows.length := by omega
      have hrow := materializeRow_eq (p := p) h hread hfull (List.getElem?_eq_getElem hlt)
      rw [List.range'_succ, List.drop_eq_getElem_cons hlt, List.map_cons]
      simp only [materializeRows, hrow, ih (k + 1) (by omega), Bind.bind, Except.bind, Pure.pure,
        Except.pure]
  rw [List.range_eq_range', hloop rows.length 0 (by omega), List.drop_zero]

end Executor

end FlexQL
