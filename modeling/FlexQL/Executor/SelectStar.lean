import FlexQL.Executor.ResultRows

/-!
# SELECT *

The parser passes a star on as the name of a column, the check of the columns lets it through, and
the projection then looks for a column of that name. So a star gives one value, not a row.
-/

namespace FlexQL.Executor

open Text Table Fallible

variable {p : Platform} {e : Executor} {t : Table} {u : Option Table} {s : SelectStmt}
  {schema : Schema} {row : Row} {rows kept : List Row}

/-- The values of all columns of a row, in the order of the schema. -/
def wholeRow (row : Row) : List Text := row.values.map valueText

/-- The query with all columns by name. -/
def withNames (s : SelectStmt) (schema : Schema) : SelectStmt :=
  { s with columns := schema.map ColumnDef.name }

/-- The query emits whole rows, as it does with all columns by name, when the names are distinct. -/
def EmitsWholeRows (p : Platform) (e : Executor) (s : SelectStmt) (t : Table) (u : Option Table)
    (kept : List Row) : Prop :=
  execSelect p e s = .ok ⟨.returned 0 none, (orderRows p t u s kept).map wholeRow⟩ ∧
    (((resultSchema t u).map ColumnDef.name).Nodup →
      execSelect p e (withNames s (resultSchema t u)) = execSelect p e s)

/-! ## All columns by name -/

theorem columnIndex_getElem (hnodup : (schema.map ColumnDef.name).Nodup) {i : ℕ} {d : ColumnDef}
    (hd : schema[i]? = some d) : columnIndex schema d.name = some i := by
  obtain ⟨hi, rfl⟩ := List.getElem?_eq_some_iff.mp hd
  rw [columnIndex, List.findIdx?_eq_some_iff_getElem]
  refine ⟨hi, by simp, ?_⟩
  intro j hj
  rw [decide_eq_true_eq]
  intro hname
  have hlt : j < (schema.map ColumnDef.name).length := by
    rw [List.length_map]
    omega
  have heq : (schema.map ColumnDef.name)[j]? = (schema.map ColumnDef.name)[i]? := by
    rw [List.getElem?_map, List.getElem?_map, List.getElem?_eq_getElem (by omega),
      List.getElem?_eq_getElem hi, Option.map_some, Option.map_some, hname]
  have := (List.getElem?_inj hlt hnodup).mp heq
  omega

/-- The columns with distinct names, one after the other, are the whole row. -/
theorem projection_names (hnodup : (schema.map ColumnDef.name).Nodup) (hrow : RowFull schema row) :
    projection schema (schema.map ColumnDef.name) row = wholeRow row := by
  refine List.ext_getElem? fun i => ?_
  rw [projection, wholeRow, List.map_map, List.getElem?_map, List.getElem?_map]
  cases hd : schema[i]? with
  | none =>
    rw [List.getElem?_eq_none_iff, ← hrow.length_eq, ← List.getElem?_eq_none_iff] at hd
    rw [hd]
    rfl
  | some d =>
    obtain ⟨v, hv, -⟩ := hrow.exists_value hd
    simp only [hv, Option.map_some, Function.comp_apply, valueOf_eq hrow,
      columnIndex_getElem hnodup hd, Option.bind_some, Option.elim_some]

/-- Without a join there is no second table. -/
theorem Keeps.eq_none (h : Keeps p e s t u kept) (hjoin : s.hasJoin = false) : u = none := by
  cases h with
  | index => rfl
  | filter _ hrows _ => cases hrows with
    | table => rfl
    | join hjoin' => simp [hjoin] at hjoin'

theorem Scanned.withNames (h : Scanned p e s t u rows) (schema : Schema) :
    Scanned p e (withNames s schema) t u rows := by
  cases h with
  | table hjoin hn hrows => exact .table hjoin hn hrows
  | join hjoin ht2 hrows => exact .join hjoin ht2 hrows

/-- The rows of a result do not depend on the columns that are asked for. -/
theorem Keeps.withNames (h : Keeps p e s t u kept) (schema : Schema) :
    Keeps p e (withNames s schema) t u kept := by
  cases h with
  | index hindex => exact .index hindex
  | filter hindex hrows hkept => exact .filter hindex (hrows.withNames schema) hkept

theorem Accepted.withNames (ht : Accepted e s t) (h : Keeps p e s t u kept) :
    Accepted e (withNames s (resultSchema t u)) t := by
  refine ⟨ht.table, fun hjoin => unknownColumn_eq_none fun name hname => ?_⟩
  obtain ⟨d, hd, rfl⟩ := List.mem_map.mp hname
  rw [h.eq_none hjoin, resultSchema, Option.elim_none, List.append_nil] at hd
  exact ⟨d, hd, rfl⟩

/-- The query for all columns by name emits whole rows. -/
theorem execSelect_withNames (ht : Accepted e s t) (h : Keeps p e s t u kept) (hsort : Sortable s kept)
    (hnodup : ((resultSchema t u).map ColumnDef.name).Nodup) :
    execSelect p e (withNames s (resultSchema t u)) =
      .ok ⟨.returned 0 none, (orderRows p t u s kept).map wholeRow⟩ := by
  have hperm := orderRows_perm (p := p) (fun row hrow => (h.read row hrow).full) hsort
  rw [(h.withNames _).execSelect (ht.withNames h), emit]
  congr 2
  refine List.map_congr_left fun row hrow => ?_
  have hread := h.read row (hperm.mem_iff.mp hrow)
  have hcolumns : ∀ name ∈ (resultSchema t u).map ColumnDef.name, ∃ d ∈ resultSchema t u, d.name = name :=
    fun name hname => List.mem_map.mp hname
  have hproject := project_eq (show resultSchema t u = _ from rfl) hcolumns hread
  exact hproject.trans (projection_names hnodup hread.full)

/-! ## A star -/

/-- What a star gives for a row. -/
theorem project_star (hrow : ReadRow (resultSchema t u) row) :
    project t u [str "*"] row = [((columnIndex (resultSchema t u) (str "*")).bind fun i =>
      row.values[i]?).elim (str "NULL") valueText] := by
  rw [project, List.map_singleton, cell, resultIndex_eq_columnIndex]
  cases h : (columnIndex (resultSchema t u) (str "*")).bind fun i => row.values[i]? with
  | none => rfl
  | some v =>
    obtain ⟨i, -, hv⟩ := Option.bind_eq_some_iff.mp h
    simp only [Option.elim_some, valueText]
    split
    · rw [cStr_of_nonzero (hrow.str v (List.mem_of_getElem? hv))]
    · rw [cStr_of_nonzero (ofInt64_nonzero _)]

/-- A star stands for the whole row when there is one column, of that name or with the text that is
emitted for a column that does not exist. -/
theorem project_star_eq_wholeRow_iff (hrow : ReadRow (resultSchema t u) row) :
    project t u [str "*"] row = wholeRow row ↔
      ∃ d, resultSchema t u = [d] ∧ (d.name = str "*" ∨ ∀ v ∈ row.values, valueText v = str "NULL") := by
  have hlen := hrow.full.length_eq
  rw [project_star hrow, wholeRow]
  constructor
  · intro h
    have hone := congrArg List.length h
    rw [List.length_singleton, List.length_map] at hone
    obtain ⟨d, hd⟩ := List.length_eq_one_iff.mp (hlen.symm.trans hone.symm)
    obtain ⟨v, hv⟩ := List.length_eq_one_iff.mp hone.symm
    refine ⟨d, hd, ?_⟩
    by_cases hname : d.name = str "*"
    · exact Or.inl hname
    · right
      simp only [hd, hv, columnIndex, List.findIdx?_cons, hname, decide_false, List.findIdx?_nil,
        Bool.false_eq_true, if_false, Option.map_none, Option.bind_none, Option.elim_none,
        List.map_singleton, List.cons.injEq, and_true] at h
      simpa [hv] using h.symm
  · rintro ⟨d, hd, hcase⟩
    rw [hd, List.length_singleton] at hlen
    obtain ⟨v, hv⟩ := List.length_eq_one_iff.mp hlen
    rw [hd, hv]
    by_cases hname : d.name = str "*"
    · simp [columnIndex, hname]
    · have hnull := hcase.resolve_left hname v (by simp [hv])
      simp [columnIndex, hname, hnull]

theorem emitsWholeRows_iff_forall (hstar : s.columns = [str "*"]) (ht : Accepted e s t)
    (hkept : Keeps p e s t u kept) (hsort : Sortable s kept) :
    EmitsWholeRows p e s t u kept ↔ ∀ row ∈ kept, project t u [str "*"] row = wholeRow row := by
  have hperm := orderRows_perm (p := p) (fun row hrow => (hkept.read row hrow).full) hsort
  have hrows : (orderRows p t u s kept).map (project t u s.columns) =
      (orderRows p t u s kept).map wholeRow ↔
        ∀ row ∈ kept, project t u [str "*"] row = wholeRow row := by
    rw [List.map_inj_left, hstar]
    exact forall_congr' fun row => by rw [hperm.mem_iff]
  rw [← hrows, EmitsWholeRows, hkept.execSelect ht, emit]
  constructor
  · intro h
    simpa using h.1
  · intro h
    rw [h]
    exact ⟨rfl, fun hnodup => execSelect_withNames ht hkept hsort hnodup⟩

/-- A query for `*` emits whole rows just when it has no rows, or when the rows have a single column,
of the name `*` or with the text `NULL` in it. -/
theorem star_emitsWholeRows_iff (p : Platform) (e : Executor) (s : SelectStmt) (t : Table)
    (u : Option Table) (kept : List Row) (hstar : s.columns = [str "*"]) (ht : Accepted e s t)
    (hkept : Keeps p e s t u kept) (hsort : Sortable s kept) :
    EmitsWholeRows p e s t u kept ↔ kept = [] ∨ ∃ d, resultSchema t u = [d] ∧
      (d.name = str "*" ∨ ∀ row ∈ kept, ∀ v ∈ row.values, valueText v = str "NULL") := by
  rw [emitsWholeRows_iff_forall hstar ht hkept hsort]
  constructor
  · intro h
    by_cases hnil : kept = []
    · exact Or.inl hnil
    · right
      obtain ⟨row, hrow⟩ := List.exists_mem_of_ne_nil _ hnil
      obtain ⟨d, hd, -⟩ := (project_star_eq_wholeRow_iff (hkept.read row hrow)).mp (h row hrow)
      refine ⟨d, hd, ?_⟩
      by_cases hname : d.name = str "*"
      · exact Or.inl hname
      · right
        intro row hrow
        obtain ⟨d', hd', hcase⟩ := (project_star_eq_wholeRow_iff (hkept.read row hrow)).mp (h row hrow)
        obtain rfl : d = d' := by simpa [hd] using hd'
        exact hcase.resolve_left hname
  · rintro (rfl | ⟨d, hd, hcase⟩)
    · simp
    · intro row hrow
      rw [project_star_eq_wholeRow_iff (hkept.read row hrow)]
      exact ⟨d, hd, hcase.imp id fun h => h row hrow⟩

/-- `SELECT * FROM T`, as the parser reads it. -/
def selectStar : SelectStmt := (Parser.parse (str "SELECT * FROM T")).selectStmt

theorem selectStar_eq : selectStar = { columns := [str "*"], tableName := str "T" } := by
  decide

/-- A table with one column that is called by the star, and one row. -/
theorem star_emitsWholeRows_one_column :
    ∃ e t kept, runNew [str "CREATE TABLE T (* INT)", str "INSERT INTO T VALUES (7)"] = .ok e ∧
      Accepted e selectStar t ∧ Keeps .reference e selectStar t none kept ∧ kept ≠ [] ∧
      EmitsWholeRows .reference e selectStar t none kept := by
  have hend : tableBehind [str "CREATE TABLE T (* INT)", str "INSERT INTO T VALUES (7)"] (str "T") =
      .ok (some ([⟨str "*", .decimal⟩], .ok [⟨[⟨.decimal, 7, []⟩]⟩])) := by decide +kernel
  obtain ⟨e, t, n, he, ht, hschema, hn, hrows⟩ := exists_of_tableBehind hend
  have hacc : Accepted e selectStar t := by
    rw [selectStar_eq]
    refine ⟨getTable_eq_ok.mpr ht, fun _ => ?_⟩
    rw [unknownColumn, hschema]
    decide
  have hkept : Keeps .reference e selectStar t none [⟨[⟨.decimal, 7, []⟩]⟩] := by
    rw [selectStar_eq]
    exact keeps_all rfl rfl hn hrows
  refine ⟨e, t, _, he, hacc, hkept, by simp, ?_⟩
  refine (star_emitsWholeRows_iff _ _ _ _ _ _ ?_ hacc hkept ?_).mpr
    (Or.inr ⟨⟨str "*", .decimal⟩, ?_, Or.inl rfl⟩)
  · rw [selectStar_eq]
  · simp [Sortable]
  · rw [resultSchema, hschema]
    rfl

/-- The two values of a row come out as one `NULL`. -/
theorem not_emitsWholeRows_two_columns :
    ∃ e t kept, runNew [str "CREATE TABLE T (ID INT, V INT)", str "INSERT INTO T VALUES (1,2)"] =
        .ok e ∧ Accepted e selectStar t ∧ Keeps .reference e selectStar t none kept ∧
      execSelect .reference e selectStar = .ok ⟨.returned 0 none, [[str "NULL"]]⟩ ∧
      ¬ EmitsWholeRows .reference e selectStar t none kept := by
  have hend : tableBehind [str "CREATE TABLE T (ID INT, V INT)", str "INSERT INTO T VALUES (1,2)"]
      (str "T") = .ok (some ([⟨str "ID", .decimal⟩, ⟨str "V", .decimal⟩],
        .ok [⟨[⟨.decimal, 1, []⟩, ⟨.decimal, 2, []⟩]⟩])) := by decide +kernel
  obtain ⟨e, t, n, he, ht, hschema, hn, hrows⟩ := exists_of_tableBehind hend
  have hacc : Accepted e selectStar t := by
    rw [selectStar_eq]
    refine ⟨getTable_eq_ok.mpr ht, fun _ => ?_⟩
    rw [unknownColumn, hschema]
    decide
  have hkept : Keeps .reference e selectStar t none [⟨[⟨.decimal, 1, []⟩, ⟨.decimal, 2, []⟩]⟩] := by
    rw [selectStar_eq]
    exact keeps_all rfl rfl hn hrows
  refine ⟨e, t, _, he, hacc, hkept, ?_, ?_⟩
  · rw [hkept.execSelect hacc, selectStar_eq]
    simp [emit, orderRows, project, cell, resultIndex, columnIndex, hschema]
    decide
  · rw [emitsWholeRows_iff_forall (by rw [selectStar_eq]) hacc hkept (by simp [Sortable])]
    intro h
    obtain ⟨d, hd, -⟩ := (project_star_eq_wholeRow_iff (hkept.read _ List.mem_cons_self)).mp
      (h _ List.mem_cons_self)
    simp [resultSchema, hschema] at hd

end FlexQL.Executor
