import FlexQL.Executor.Alignment
import FlexQL.Executor.Lookalike
import FlexQL.Lib.TextLemmas

/-!
# What a query means

A query filters the rows of a table or of a join, sorts them and projects them. The executor looks
a column up three times, in the two schemas one after the other; this is the first column with that
name in the schema of the result.
-/

namespace FlexQL.Executor

open ByteMemory Text Table Fallible

/-! ## The meaning of a query -/

/-- The number that an `int64_t` literal denotes. -/
def intLiteral (s : Text) : Option ℤ :=
  let digits := (sign s).2
  let n : ℤ := if (sign s).1 then -(digitsValue digits : ℤ) else digitsValue digits
  if digits ≠ [] ∧ digits.all isDigit ∧ -2 ^ 63 ≤ n ∧ n < 2 ^ 63 then some n else none

/-- The value of the first column with a name. -/
def valueOf (schema : Schema) (row : Row) (name : Text) : Option Value :=
  ((schema.zip row.values).find? fun q => q.1.name = name).map Prod.snd

/-- A row satisfies a clause. -/
def satisfies (schema : Schema) (row : Row) (w : WhereClause) : Bool :=
  match valueOf schema row w.columnName with
  | none => false
  | some v =>
    if v.type = .varchar then v.str = w.valueStr
    else match intLiteral w.valueStr with
      | none => false
      | some n =>
        if w.op = str "=" then v.bits.toInt = n
        else if w.op = str ">" then n < v.bits.toInt
        else n ≤ v.bits.toInt

/-- Values of one column, in the order of that column. -/
def ValueLe (a b : Value) : Prop :=
  if a.type = .varchar then a.str ≤ b.str else a.bits.toInt ≤ b.bits.toInt

def valueText (v : Value) : Text := if v.type = .varchar then v.str else ofInt64 v.bits

/-- The requested columns of a row. -/
def projection (schema : Schema) (columns : List Text) (row : Row) : List Text :=
  columns.map fun name => (valueOf schema row name).elim [] valueText

/-- The columns, operators and operands of a query are as they should be. -/
structure WellFormed (schema : Schema) (s : SelectStmt) : Prop where
  plain : Plain schema
  columns : ∀ name ∈ s.columns, ∃ d ∈ schema, d.name = name
  filters : ∀ w ∈ s.filters, ∃ d, schema.find? (fun d => d.name = w.columnName) = some d ∧
    (d.type = .varchar → w.op = str "=") ∧
    (d.type = .decimal → (w.op = str "=" ∨ w.op = str ">" ∨ w.op = str ">=") ∧
      (intLiteral w.valueStr).isSome = true)
  order : s.hasOrder = true → (∃ d ∈ schema, d.name = s.orderBy.column) ∧ s.orderBy.ascending = true

/-- The rows that a query starts from, with their schema. -/
inductive Source (p : Platform) (e : Executor) (s : SelectStmt) (t : Table) : Schema → List Row → Prop
  | table {n : ℕ} {rows : List Row} (hjoin : s.hasJoin = false) (hn : t.totalRows 0 = .ok n)
      (hrows : materializeRows p t e.disk (List.range n) = .ok rows) : Source p e s t t.schema rows
  | join {t2 : Table} {rows : List Row} (hjoin : s.hasJoin = true)
      (ht2 : e.getTable s.join.table = .ok t2)
      (hrows : HashJoin.join p t t2 e.disk s.join.onLeft s.join.onRight = .ok rows) :
      Source p e s t (t.schema ++ t2.schema) rows

variable {p : Platform} {e : Executor} {t t2 : Table} {disk : Disk} {schema : Schema} {s : SelectStmt}
  {row : Row} {rows : List Row}

/-! ## The rows of tables and joins -/

/-- A row as it is read: one value for each column, without zero bytes in its text. -/
structure ReadRow (schema : Schema) (row : Row) : Prop where
  full : RowFull schema row
  str : ∀ v ∈ row.values, ∀ b ∈ v.str, b ≠ 0

theorem readRow_nil : ReadRow [] ⟨[]⟩ := ⟨rfl, by simp⟩

theorem ReadRow.append {schema2 : Schema} {row2 : Row} (h : ReadRow schema row)
    (h2 : ReadRow schema2 row2) : ReadRow (schema ++ schema2) ⟨row.values ++ row2.values⟩ where
  full := by
    have hfull := h.full
    have hfull2 := h2.full
    simp only [RowFull, List.map_append] at *
    rw [hfull, hfull2]
  str := by
    intro v hv
    rcases List.mem_append.mp hv with hv | hv
    · exact h.str v hv
    · exact h2.str v hv

theorem materializeValue_read {rid c : ℕ} {type : ColumnType} {v : Value}
    (h : materializeValue p t disk rid type c = .ok v) : v.type = type ∧ ∀ b ∈ v.str, b ≠ 0 := by
  obtain ⟨out, -, h⟩ := bind_eq_ok h
  cases out with
  | none =>
    cases h
    exact ⟨rfl, by simp⟩
  | some buf =>
    by_cases htype : type = .varchar
    · simp only [htype, if_true] at h
      cases h
      exact ⟨htype.symm, fun b hb => by simpa using List.mem_takeWhile_imp hb⟩
    · simp only [htype, if_false] at h
      cases h
      exact ⟨rfl, by simp⟩

theorem materializeFrom_read {rid c : ℕ} {values : List Value}
    (h : materializeFrom p t disk rid schema c = .ok values) : ReadRow schema ⟨values⟩ := by
  induction schema generalizing c values with
  | nil =>
    cases h
    exact readRow_nil
  | cons d schema ih =>
    obtain ⟨v, hv, h⟩ := bind_eq_ok h
    obtain ⟨vs, hvs, h⟩ := bind_eq_ok h
    cases h
    obtain ⟨htype, hstr⟩ := materializeValue_read hv
    have hhead : ReadRow [d] ⟨[v]⟩ := ⟨by simp [RowFull, htype], by simpa using hstr⟩
    exact hhead.append (ih hvs)

theorem materializeRow_read {rid : ℕ} (h : materializeRow p t disk rid = .ok row) :
    ReadRow t.schema row := by
  obtain ⟨values, hvalues, h⟩ := bind_eq_ok h
  cases h
  exact materializeFrom_read hvalues

section Forall

variable {R R2 : Row → Prop}

/-- What holds of every row that is read holds of lists of them. -/
theorem materializeRows_forall {rids : List ℕ}
    (hR : ∀ rid row, materializeRow p t disk rid = .ok row → R row)
    (h : materializeRows p t disk rids = .ok rows) : ∀ row ∈ rows, R row := by
  induction rids generalizing rows with
  | nil =>
    cases h
    simp
  | cons rid rids ih =>
    obtain ⟨row, hrow, h⟩ := bind_eq_ok h
    obtain ⟨rest, hrest, h⟩ := bind_eq_ok h
    cases h
    exact List.forall_mem_cons.mpr ⟨hR rid row hrow, ih hrest⟩

variable {S : Row → Prop} (hR : ∀ rid row, materializeRow p t disk rid = .ok row → R row)
  (hR2 : ∀ rid row, materializeRow p t2 disk rid = .ok row → R2 row)
  (hS : ∀ row row2, R row → R2 row2 → S ⟨row.values ++ row2.values⟩)

include hR hR2 hS

theorem joinRow_forall {hashTable : List (ℕ × ℕ)} {val rid : ℕ}
    (h : HashJoin.joinRow p t t2 disk hashTable val rid = .ok rows) : ∀ row ∈ rows, S row := by
  unfold HashJoin.joinRow at h
  split at h
  · cases h
    simp
  · obtain ⟨row1, hrow1, h⟩ := bind_eq_ok h
    obtain ⟨rows2, hrows2, h⟩ := bind_eq_ok h
    cases h
    intro row hrow
    obtain ⟨row2, hrow2, rfl⟩ := List.mem_map.mp hrow
    exact hS row1 row2 (hR rid row1 hrow1) (materializeRows_forall hR2 hrows2 row2 hrow2)

theorem probe_forall {c : ℕ} {hashTable : List (ℕ × ℕ)} {rids : List ℕ}
    (h : HashJoin.probe p t t2 disk c hashTable rids = .ok rows) : ∀ row ∈ rows, S row := by
  induction rids generalizing rows with
  | nil =>
    cases h
    simp
  | cons rid rids ih =>
    obtain ⟨out, -, h⟩ := bind_eq_ok h
    cases out with
    | none => exact ih h
    | some buf =>
      obtain ⟨joined, hjoined, h⟩ := bind_eq_ok h
      obtain ⟨rest, hrest, h⟩ := bind_eq_ok h
      cases h
      intro row hrow
      rcases List.mem_append.mp hrow with hrow | hrow
      · exact joinRow_forall hR hR2 hS hjoined row hrow
      · exact ih hrest row hrow

/-- A joined row is made of a row of each table. -/
theorem join_forall {col1 col2 : Text} (h : HashJoin.join p t t2 disk col1 col2 = .ok rows) :
    ∀ row ∈ rows, S row := by
  unfold HashJoin.join at h
  split at h
  · obtain ⟨n2, -, h⟩ := bind_eq_ok h
    obtain ⟨hashTable, -, h⟩ := bind_eq_ok h
    obtain ⟨n1, -, h⟩ := bind_eq_ok h
    exact probe_forall hR hR2 hS h
  · cases h
    simp

end Forall

theorem materializeRows_read {rids : List ℕ} (h : materializeRows p t disk rids = .ok rows) :
    ∀ row ∈ rows, ReadRow t.schema row :=
  materializeRows_forall (fun _ _ => materializeRow_read) h

theorem join_read {col1 col2 : Text} (h : HashJoin.join p t t2 disk col1 col2 = .ok rows) :
    ∀ row ∈ rows, ReadRow (t.schema ++ t2.schema) row :=
  join_forall (fun _ _ => materializeRow_read) (fun _ _ => materializeRow_read)
    (fun _ _ => ReadRow.append) h

theorem Source.read (h : Source p e s t schema rows) : ∀ row ∈ rows, ReadRow schema row := by
  cases h with
  | table _ _ hrows => exact materializeRows_read hrows
  | join _ _ hrows => exact join_read hrows

/-! ## Looking up columns -/

section Lookup

variable {u : Option Table} (hschema : schema = t.schema ++ u.elim [] Table.schema)

include hschema

/-- The two searches are one in the schema of the result. -/
theorem resultIndex_eq (name : Text) : resultIndex t u name = columnIndex schema name := by
  subst hschema
  unfold resultIndex columnIndex
  rw [List.findIdx?_append]
  cases u with
  | none => cases List.findIdx? (fun d : ColumnDef => decide (d.name = name)) t.schema <;> rfl
  | some t2 =>
    cases List.findIdx? (fun d : ColumnDef => decide (d.name = name)) t.schema with
    | some i => rfl
    | none =>
      simp only [Option.elim_some, Option.none_or]
      congr 1
      funext i
      exact Nat.add_comm _ _

end Lookup

theorem valueOf_eq (h : RowFull schema row) (name : Text) :
    valueOf schema row name = (columnIndex schema name).bind fun i => row.values[i]? := by
  obtain ⟨values⟩ := row
  have hlen := h.length_eq
  simp only at hlen
  unfold valueOf columnIndex
  simp only
  clear h
  induction schema generalizing values with
  | nil => rfl
  | cons d schema ih =>
    cases values with
    | nil => simp at hlen
    | cons v values =>
      have hrest := ih values (by simpa using hlen)
      by_cases hname : d.name = name
      · simp [List.findIdx?_cons, hname]
      · simp only [List.zip_cons_cons, List.find?_cons, hname, decide_false, hrest,
          List.findIdx?_cons, Bool.false_eq_true, if_false, Option.bind_map]
        rfl

/-- A column that exists has a value, of the type of the first column with that name. -/
theorem exists_value (h : RowFull schema row) {name : Text} {d : ColumnDef}
    (hd : schema.find? (fun d => d.name = name) = some d) :
    ∃ (i : ℕ) (v : Value), columnIndex schema name = some i ∧ row.values[i]? = some v ∧
      v.type = d.type ∧ valueOf schema row name = some v := by
  rw [List.find?_eq_bind_findIdx?_getElem?] at hd
  obtain ⟨i, hi, hdi⟩ := Option.bind_eq_some_iff.mp hd
  obtain ⟨v, hv, htype⟩ := h.exists_value hdi
  refine ⟨i, v, hi, hv, htype, ?_⟩
  rw [valueOf_eq h, columnIndex, hi, Option.bind_some, hv]

theorem find?_of_mem {name : Text} (h : ∃ d ∈ schema, d.name = name) :
    ∃ d ∈ schema, schema.find? (fun d => d.name = name) = some d := by
  obtain ⟨d, hd, hname⟩ := h
  cases hfind : schema.find? (fun d => d.name = name) with
  | none => exact absurd hname (by simpa using List.find?_eq_none.mp hfind d hd)
  | some d' => exact ⟨d', List.mem_of_find?_eq_some hfind, rfl⟩

/-! ## Filtering -/

theorem isSpace_of_isDigit {b : UInt8} (h : isDigit b = true) : isSpace b = false := by
  simp only [isDigit, Bool.and_eq_true, decide_eq_true_eq, UInt8.le_iff_toNat_le] at h
  have hne : b ≠ 32 := by
    rintro rfl
    simp at h
  have hgt : ¬ b ≤ 13 := by
    rw [UInt8.le_iff_toNat_le]
    simp at h ⊢
    omega
  simp [isSpace, hne, hgt]

theorem sign_cases (s : Text) :
    (∃ digits, s = 45 :: digits ∧ sign s = (true, digits)) ∨
    (∃ digits, s = 43 :: digits ∧ sign s = (false, digits)) ∨ sign s = (false, s) := by
  unfold sign
  split
  · exact Or.inl ⟨_, rfl, rfl⟩
  · exact Or.inr (Or.inl ⟨_, rfl, rfl⟩)
  · exact Or.inr (Or.inr rfl)

/-- A literal starts with a sign or a digit. -/
theorem dropWhile_isSpace_literal {s : Text} (hne : (sign s).2 ≠ [])
    (hdigits : (sign s).2.all isDigit = true) : s.dropWhile isSpace = s := by
  rcases sign_cases s with ⟨digits, rfl, -⟩ | ⟨digits, rfl, -⟩ | hsign
  · rfl
  · rfl
  · rw [hsign] at hne hdigits
    obtain ⟨b, s, rfl⟩ := List.exists_cons_of_ne_nil hne
    have hb := List.all_eq_true.mp hdigits b List.mem_cons_self
    exact List.dropWhile_cons_of_neg (by simp [isSpace_of_isDigit hb])

/-- `std::stoll` reads a literal. -/
theorem stoll_literal {s : Text} {n : ℤ} (h : intLiteral s = some n) :
    ∃ v, stoll s = .ok v ∧ v.toInt = n := by
  simp only [intLiteral, Option.ite_none_right_eq_some, Option.some.injEq] at h
  obtain ⟨⟨hne, hdigits, hlow, hhigh⟩, hn⟩ := h
  rw [hn] at hlow hhigh
  have htake : (sign s).2.takeWhile isDigit = (sign s).2 :=
    List.takeWhile_eq_self_iff.mpr (List.all_eq_true.mp hdigits)
  have hdrop := dropWhile_isSpace_literal hne hdigits
  refine ⟨BitVec.ofInt 64 n, ?_, BitVec.toInt_ofInt_eq_self (by decide) hlow hhigh⟩
  simp only [stoll, hdrop, htake, if_neg hne, hn]
  exact if_neg (by omega)

theorem decide_bits_eq (a b : BitVec 64) : decide (a = b) = decide (a.toInt = b.toInt) := by
  simp only [BitVec.toInt_inj]

section Clauses

variable {u : Option Table} (hschema : schema = t.schema ++ u.elim [] Table.schema)
  (hwf : WellFormed schema s)

include hwf

/-- A clause passes for the rows that satisfy it. -/
theorem passes_eq {w : WhereClause} (hw : w ∈ s.filters) (hrow : RowFull schema row) :
    ∃ (i : ℕ) (v : Value), columnIndex schema w.columnName = some i ∧ row.values[i]? = some v ∧
      passes w v = .ok (satisfies schema row w) := by
  obtain ⟨d, hd, hvarchar, hdecimal⟩ := hwf.filters w hw
  obtain ⟨i, v, hi, hv, htype, hvalue⟩ := exists_value hrow hd
  refine ⟨i, v, hi, hv, ?_⟩
  rcases hwf.plain d (List.mem_of_find?_eq_some hd) with hd' | hd'
  · have hne : v.type ≠ .varchar := by rw [htype, hd']; decide
    obtain ⟨hop, hliteral⟩ := hdecimal hd'
    obtain ⟨n, hn⟩ := Option.isSome_iff_exists.mp hliteral
    obtain ⟨b, hb, rfl⟩ := stoll_literal hn
    simp only [satisfies, hvalue, if_neg hne, hn, passes, hb, Bind.bind, Except.bind, Pure.pure,
      Except.pure, decide_bits_eq]
    rcases hop with hop | hop | hop
    · simp only [hop, if_true]
    · simp only [hop]
      rfl
    · simp only [hop]
      rfl
  · have hvar : v.type = .varchar := htype.trans hd'
    simp only [satisfies, hvalue, if_pos hvar, passes, hvarchar hd', if_true]

include hschema

theorem matchesAll_eq (hrow : RowFull schema row) {ws : List WhereClause}
    (hws : ∀ w ∈ ws, w ∈ s.filters) :
    matchesAll t u row ws = .ok (.ok (ws.all (satisfies schema row))) := by
  induction ws with
  | nil => rfl
  | cons w ws ih =>
    have hrest := ih fun w' hw' => hws w' (List.mem_cons_of_mem _ hw')
    obtain ⟨i, v, hi, hv, hpass⟩ := passes_eq hwf (hws w List.mem_cons_self) hrow
    rw [← resultIndex_eq hschema] at hi
    simp only [matchesAll, hi, hv, hpass, List.all_cons]
    cases satisfies schema row w with
    | true => simpa using hrest
    | false => rfl

/-- The rows that are kept are those that satisfy all clauses, in their order. -/
theorem filterRows_eq (hrows : ∀ row ∈ rows, RowFull schema row) :
    filterRows t u s.filters rows =
      .ok (.ok (rows.filter fun row => s.filters.all (satisfies schema row))) := by
  induction rows with
  | nil => rfl
  | cons row rows ih =>
    have hrest := ih fun r hr => hrows r (List.mem_cons_of_mem _ hr)
    have hmatch := matchesAll_eq hschema hwf (hrows row List.mem_cons_self) fun w hw => hw
    simp only [filterRows, hmatch, hrest, Bind.bind, Except.bind, Pure.pure, Except.pure,
      List.filter_cons]

end Clauses

/-! ## Sorting -/

/-- A comparison of rows by a key from a linear order. -/
theorem strictWeakOrder_of_key {κ : Type} [LT κ] [LE κ] [Std.IsLinearOrder κ] [Std.LawfulOrderLT κ]
    {lt : Row → Row → Bool} (key : Row → κ)
    (h : ∀ a ∈ rows, ∀ b ∈ rows, (lt a b = true ↔ key a < key b)) : StrictWeakOrder lt rows := by
  have hle : ∀ a ∈ rows, ∀ b ∈ rows, (lt a b = false ↔ key b ≤ key a) := by
    intro a ha b hb
    rw [← Bool.not_eq_true, h a ha b hb, Std.not_lt]
  constructor
  · intro a ha
    rw [hle a ha a ha]
    exact Std.le_refl _
  · intro a ha b hb c hc hab hbc
    rw [h a ha c hc]
    exact Std.lt_trans ((h a ha b hb).mp hab) ((h b hb c hc).mp hbc)
  · intro a ha b hb c hc hab hba hbc hcb
    rw [hle a ha b hb] at hab
    rw [hle b hb a ha] at hba
    rw [hle b hb c hc] at hbc
    rw [hle c hc b hb] at hcb
    rw [hle a ha c hc, hle c hc a ha]
    exact ⟨Std.le_trans hbc hab, Std.le_trans hba hcb⟩

/-- The first value of a column, for a column of decimals. -/
def intKey (i : ℕ) (row : Row) : ℤ := (row.values[i]?.map fun v => v.bits.toInt).getD 0

/-- The first value of a column, for a column of texts. -/
def textKey (i : ℕ) (row : Row) : Text := (row.values[i]?.map Value.str).getD []

section Order

variable {i : ℕ} {d : ColumnDef} (hd : schema[i]? = some d)
  (hrows : ∀ row ∈ rows, RowFull schema row)

include hd hrows

/-- `ORDER BY` compares the values of a column. -/
theorem orderLt_iff {a b : Row} (ha : a ∈ rows) (hb : b ∈ rows) :
    orderLt true i a b = true ↔
      if d.type = .varchar then textKey i a < textKey i b else intKey i a < intKey i b := by
  obtain ⟨va, hva, hta⟩ := (hrows a ha).exists_value hd
  obtain ⟨vb, hvb, -⟩ := (hrows b hb).exists_value hd
  simp only [orderLt, hva, hvb, hta, textKey, intKey, Option.map_some, Option.getD_some, if_true]
  split <;> simp

theorem strictWeakOrder_orderLt : StrictWeakOrder (orderLt true i) rows := by
  by_cases htype : d.type = .varchar
  · refine strictWeakOrder_of_key (textKey i) ?_
    intro a ha b hb
    rw [orderLt_iff hd hrows ha hb, if_pos htype]
  · refine strictWeakOrder_of_key (intKey i) ?_
    intro a ha b hb
    rw [orderLt_iff hd hrows ha hb, if_neg htype]

/-- Rows that are not the wrong way round are in the order of their values. -/
theorem valueLe_of_orderLt {a b : Row} (ha : a ∈ rows) (hb : b ∈ rows)
    (h : orderLt true i b a = false) :
    ∃ va vb, a.values[i]? = some va ∧ b.values[i]? = some vb ∧ ValueLe va vb := by
  obtain ⟨va, hva, hta⟩ := (hrows a ha).exists_value hd
  obtain ⟨vb, hvb, htb⟩ := (hrows b hb).exists_value hd
  refine ⟨va, vb, hva, hvb, ?_⟩
  rw [← Bool.not_eq_true, orderLt_iff hd hrows hb ha] at h
  unfold ValueLe
  rw [hta]
  by_cases htype : d.type = .varchar
  · simpa [if_pos htype, textKey, hva, hvb] using h
  · simpa [if_neg htype, intKey, hva, hvb] using h

end Order

/-! ## Projecting -/

theorem ofNat_nonzero (n : ℕ) : ∀ b ∈ ofNat n, b ≠ 0 := by
  intro b hb
  obtain ⟨c, hc, rfl⟩ := List.mem_map.mp hb
  have hdigit := Nat.isDigit_of_mem_toDigits (by decide) (by decide) hc
  simp only [Char.isDigit, Bool.and_eq_true, decide_eq_true_eq, ge_iff_le, UInt32.le_iff_toNat_le] at hdigit
  intro hzero
  have htoNat : c.toNat % 256 = 0 := by simpa [ch] using congrArg UInt8.toNat hzero
  have : c.toNat = c.val.toNat := rfl
  simp at hdigit
  omega

theorem ofInt64_nonzero (v : BitVec 64) : ∀ b ∈ ofInt64 v, b ≠ 0 := by
  intro b hb
  unfold ofInt64 at hb
  split at hb
  · rcases List.mem_cons.mp hb with rfl | hb
    · decide
    · exact ofNat_nonzero _ b hb
  · exact ofNat_nonzero _ b hb

/-- The callback gets the texts of the requested values. -/
theorem project_eq {u : Option Table} (hschema : schema = t.schema ++ u.elim [] Table.schema)
    {columns : List Text} (hcolumns : ∀ name ∈ columns, ∃ d ∈ schema, d.name = name)
    (hrow : ReadRow schema row) : project t u columns row = projection schema columns row := by
  refine List.map_congr_left ?_
  intro name hname
  obtain ⟨d, -, hd⟩ := find?_of_mem (hcolumns name hname)
  obtain ⟨i, v, hi, hv, -, hvalue⟩ := exists_value hrow.full hd
  simp only [cell, resultIndex_eq hschema, hi, Option.bind_some, hv, hvalue, Option.elim_some, valueText]
  split
  · exact cStr_of_nonzero (hrow.str v (List.mem_of_getElem? hv))
  · exact cStr_of_nonzero (ofInt64_nonzero _)

/-! ## Queries -/

/-- Two rows are in the order of a column. -/
def RowLe (schema : Schema) (name : Text) (a b : Row) : Prop :=
  ∃ va vb, valueOf schema a name = some va ∧ valueOf schema b name = some vb ∧ ValueLe va vb

/-- A query may emit this for the rows it starts from. -/
def Answers (schema : Schema) (s : SelectStmt) (source : List Row) (emitted : List (List Text)) :
    Prop :=
  ∃ rows : List Row, emitted = rows.map (projection schema s.columns) ∧
    rows.Perm (source.filter fun row => s.filters.all (satisfies schema row)) ∧
    (s.hasOrder = false → rows = source.filter fun row => s.filters.all (satisfies schema row)) ∧
    (s.hasOrder = true → rows.Pairwise (RowLe schema s.orderBy.column))

section Queries

variable {u : Option Table} (hschema : schema = t.schema ++ u.elim [] Table.schema)
  (hwf : WellFormed schema s)

include hschema hwf

theorem orderRows_spec (hrows : ∀ row ∈ rows, RowFull schema row) :
    (orderRows p t u s rows).Perm rows ∧ (s.hasOrder = false → orderRows p t u s rows = rows) ∧
      (s.hasOrder = true → (orderRows p t u s rows).Pairwise (RowLe schema s.orderBy.column)) := by
  unfold orderRows
  by_cases horder : s.hasOrder = true
  · obtain ⟨hcolumn, hasc⟩ := hwf.order horder
    obtain ⟨d, -, hd⟩ := find?_of_mem hcolumn
    rw [List.find?_eq_bind_findIdx?_getElem?] at hd
    obtain ⟨i, hi, hdi⟩ := Option.bind_eq_some_iff.mp hd
    have hindex : columnIndex schema s.orderBy.column = some i := hi
    have hweak := strictWeakOrder_orderLt hdi hrows
    have hperm := p.sort_perm _ _ hweak
    have hsorted := p.sort_sorted _ _ hweak
    simp only [horder, if_true, resultIndex_eq hschema, hindex, hasc]
    refine ⟨hperm, by simp, fun _ => ?_⟩
    refine hsorted.imp_of_mem ?_
    intro a b ha hb hab
    have ha' := hperm.mem_iff.mp ha
    have hb' := hperm.mem_iff.mp hb
    obtain ⟨va, vb, hva, hvb, hle⟩ := valueLe_of_orderLt hdi hrows ha' hb' hab
    refine ⟨va, vb, ?_, ?_, hle⟩
    · rw [valueOf_eq (hrows a ha'), hindex, Option.bind_some, hva]
    · rw [valueOf_eq (hrows b hb'), hindex, Option.bind_some, hvb]
  · simp [horder]

/-- Filtering, sorting and projecting the rows that a query starts from. -/
theorem filter_emit (hrows : ∀ row ∈ rows, ReadRow schema row) :
    ∃ kept, filterRows t u s.filters rows = .ok (.ok kept) ∧
      (emit p t u s kept).result = .returned 0 none ∧
      Answers schema s rows (emit p t u s kept).rows := by
  have hkept : ∀ row ∈ rows.filter fun row => s.filters.all (satisfies schema row),
      ReadRow schema row := fun row hrow => hrows row (List.mem_of_mem_filter hrow)
  obtain ⟨hperm, hsame, hsorted⟩ := orderRows_spec (p := p) hschema hwf fun row hrow =>
    (hkept row hrow).full
  refine ⟨_, filterRows_eq hschema hwf fun row hrow => (hrows row hrow).full, rfl,
    ⟨_, ?_, hperm, hsame, hsorted⟩⟩
  refine List.map_congr_left ?_
  intro row hrow
  exact project_eq hschema hwf.columns (hkept row (hperm.mem_iff.mp hrow))

end Queries

theorem unknownColumn_eq_none {columns : List Text}
    (h : ∀ name ∈ columns, ∃ d ∈ t.schema, d.name = name) : unknownColumn t columns = none := by
  rw [unknownColumn, List.find?_eq_none]
  intro name hname
  obtain ⟨d, hd, hdname⟩ := h name hname
  have hsome : columnIndex t.schema name ≠ none := by
    intro hnone
    simpa [hdname] using List.findIdx?_eq_none_iff.mp hnone d hd
  simp [hsome]

/-- A query that is not answered by the index filters, sorts and projects the rows of its table or
of its join. -/
theorem select_filters_sorts_projects (p : Platform) (e : Executor) (s : SelectStmt) (t : Table)
    (schema : Schema) (rows : List Row) (ht : e.getTable s.tableName = .ok t)
    (hindex : indexLookup p t e.disk s = .ok none) (hsource : Source p e s t schema rows)
    (hwf : WellFormed schema s) :
    ∃ emitted, execSelect p e s = .ok ⟨.returned 0 none, emitted⟩ ∧
      Answers schema s rows emitted := by
  have hread := hsource.read
  cases hsource with
  | table hjoin hn hrows =>
    have hschema : t.schema = t.schema ++ (none : Option Table).elim [] Table.schema := by simp
    obtain ⟨kept, hkept, hresult, hanswers⟩ := filter_emit (p := p) hschema hwf hread
    refine ⟨(emit p t none s kept).rows, ?_, hanswers⟩
    simp only [execSelect, ht, hjoin, unknownColumn_eq_none hwf.columns, hindex, scan, hn, hrows,
      hkept, Bool.false_eq_true, if_false, Bind.bind, Except.bind, Pure.pure, Except.pure]
    rfl
  | @join t2 _ hjoin ht2 hrows =>
    obtain ⟨kept, hkept, hresult, hanswers⟩ := filter_emit (p := p) (u := some t2) rfl hwf hread
    refine ⟨(emit p t (some t2) s kept).rows, ?_, hanswers⟩
    simp only [execSelect, ht, hjoin, hindex, ht2, hrows, hkept, if_true, Bind.bind, Except.bind,
      Pure.pure, Except.pure]
    rfl

/-- `SELECT ID FROM T WHERE V >= 5 AND ID > 0 ORDER BY V`. -/
def twoClauses : SelectStmt where
  columns := [str "ID"]
  tableName := str "T"
  filters := [⟨str "V", str ">=", str "5"⟩, ⟨str "ID", str ">", str "0"⟩]
  orderBy := ⟨str "V", true⟩
  hasOrder := true

theorem wellFormed_twoClauses :
    WellFormed [⟨str "ID", .decimal⟩, ⟨str "V", .decimal⟩] twoClauses where
  plain := fun d hd => Or.inl (by revert d; decide)
  columns := by decide
  filters := by
    intro w hw
    rcases List.mem_pair.mp hw with rfl | rfl
    · exact ⟨⟨str "V", .decimal⟩, by decide, by decide, by decide⟩
    · exact ⟨⟨str "ID", .decimal⟩, by decide, by decide, by decide⟩
  order := by decide

theorem select_two_clauses :
    ∃ e t rows emitted, runNew [str "CREATE TABLE T (ID INT, V INT)",
        str "INSERT INTO T VALUES (1,7),(2,4),(3,5)"] = .ok e ∧
      e.tables (str "T") = some t ∧
      materializeRows .reference t e.disk (List.range 3) = .ok rows ∧
      execSelect .reference e twoClauses = .ok ⟨.returned 0 none, emitted⟩ ∧
      Answers t.schema twoClauses rows emitted := by
  have hend : (do
      let e ← runNew [str "CREATE TABLE T (ID INT, V INT)",
        str "INSERT INTO T VALUES (1,7),(2,4),(3,5)"]
      return (e.tables (str "T")).map fun t : Table => (t.schema, t.totalRows 0,
        (materializeRows .reference t e.disk (List.range 3)).isOk)) =
      (.ok (some ([⟨str "ID", .decimal⟩, ⟨str "V", .decimal⟩], .ok 3, true)) :
        Except Fault (Option (Schema × Except Fault ℕ × Bool))) := by decide +kernel
  obtain ⟨e, he, hend⟩ := bind_eq_ok hend
  simp only [Pure.pure, Except.pure, Except.ok.injEq] at hend
  obtain ⟨t, ht, hvalues⟩ := Option.map_eq_some_iff.mp hend
  simp only [Prod.mk.injEq] at hvalues
  obtain ⟨hschema, htotal, hrows⟩ := hvalues
  obtain ⟨rows, hrows⟩ := exists_of_isOk hrows
  have hget : e.getTable twoClauses.tableName = .ok t := getTable_eq_ok.mpr ht
  obtain ⟨emitted, hselect, hanswers⟩ := select_filters_sorts_projects .reference e twoClauses t
    t.schema rows hget rfl (.table rfl htotal hrows) (hschema ▸ wellFormed_twoClauses)
  exact ⟨e, t, rows, emitted, he, ht, hrows, hselect, hanswers⟩

end FlexQL.Executor
