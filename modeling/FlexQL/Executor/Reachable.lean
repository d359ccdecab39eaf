import FlexQL.Executor.Executor
import FlexQL.Storage.TableAlike

/-!
# Reachable executors

The tables of an executor are sound in every state that statements lead to, whatever the
statements are and however the columns share their files.
-/

namespace FlexQL.Executor

open Text Table Runs Fallible

variable {p : Platform} {e e' : Executor}

/-- Run one text of a client, whatever its result. -/
def sqlStep (p : Platform) (e : Executor) (sql : Text) : Except Fault Executor := do
  let (e, _) ← exec p e (Parser.parse sql)
  return e

/-- The executor has run the texts of clients since it was constructed. -/
def Reachable (p : Platform) (e : Executor) : Prop :=
  ∃ dataDir disk sqls, run (sqlStep p) (init dataDir disk) sqls = .ok e

/-- Run texts on a new data directory. -/
def runNew (sqls : List Text) : Except Fault Executor :=
  run (sqlStep .reference) (init (str "data") .blank) sqls

/-- All tables are sound. -/
def Sound (e : Executor) : Prop := ∀ name t, e.tables name = some t → t.Sound

/-- The tables behind a change of one of them. -/
theorem setTable_cases {name name' : Text} {t u : Table} {disk : Disk}
    (h : (e.setTable name t disk).tables name' = some u) :
    name' = name ∧ u = t ∨ name' ≠ name ∧ e.tables name' = some u := by
  by_cases hname : name' = name
  · subst hname
    rw [setTable_same] at h
    exact Or.inl ⟨rfl, (Option.some.inj h).symm⟩
  · rw [setTable_ne _ _ _ hname] at h
    exact Or.inr ⟨hname, h⟩

theorem Sound.setTable (h : e.Sound) (name : Text) {t : Table} (ht : t.Sound) (disk : Disk) :
    (e.setTable name t disk).Sound := by
  intro name' u hu
  rcases setTable_cases hu with ⟨-, rfl⟩ | ⟨-, hu⟩
  · exact ht
  · exact h name' u hu

theorem getTable_eq_ok {name : Text} {t : Table} :
    e.getTable name = .ok t ↔ e.tables (upper name) = some t := by
  unfold getTable
  cases e.tables (upper name) <;> simp

theorem Sound.getTable (h : e.Sound) {name : Text} {t : Table} (ht : e.getTable name = .ok t) :
    t.Sound := h _ _ (getTable_eq_ok.mp ht)

/-- The loop over the tuples keeps a table sound. -/
theorem insertTuples_grown {t t' : Table} {disk disk' : Disk} {result : Result}
    {tuples : List Text} (h : t.Sound)
    (hins : insertTuples p tuples t disk = .ok (t', disk', result)) : Grown t disk (t', disk') := by
  induction tuples generalizing t disk with
  | nil =>
    cases hins
    exact .refl h _
  | cons tuple tuples ih =>
    rw [insertTuples] at hins
    cases hparse : parseTuple p t.schema tuple with
    | error f => simp [hparse, Bind.bind, Except.bind] at hins
    | ok parsed =>
      cases parsed with
      | error exn =>
        simp only [hparse, Bind.bind, Except.bind, Pure.pure, Except.pure] at hins
        cases hins
        exact .refl h _
      | ok row =>
        have hrow := h.insertRow disk row
        simp only [hparse, Bind.bind, Except.bind] at hins
        cases hr : t.insertRow disk row with
        | error f => simp [hr] at hins
        | ok r =>
          rw [hr] at hrow hins
          have hgrown := hrow.of_ok
          exact hgrown.trans (ih hgrown.sound hins)

/-! ## What a statement does -/

/-- `CREATE` fails or finds the table, or it adds a new one. -/
theorem execCreate_cases {s : CreateStmt} {o : Outcome} (h : e.execCreate s = .ok (e', o)) :
    (e' = e ∧ (o.result = .returned 1 (some (str "Missing table name")) ∨
        (e.tables s.tableName).isSome = true)) ∨
      ∃ schema t, s.tableName ≠ [] ∧ e.tables s.tableName = none ∧ columnDefs s.columns = .ok schema ∧
        Table.init e.dataDir s.tableName schema e.disk = .ok t ∧
        e' = e.setTable s.tableName t e.disk := by
  unfold Executor.execCreate at h
  split at h
  · cases h
    exact Or.inl ⟨rfl, Or.inl rfl⟩
  · rename_i hname
    split at h
    · rename_i hold
      cases h
      exact Or.inl ⟨rfl, Or.inr hold⟩
    · rename_i hnew
      rw [Bool.not_eq_true, Option.isSome_eq_false_iff, Option.isNone_iff_eq_none] at hnew
      obtain ⟨schema, hschema, h⟩ := bind_eq_ok h
      obtain ⟨t, ht, h⟩ := bind_eq_ok h
      cases h
      exact Or.inr ⟨schema, t, hname, hnew, hschema, ht, rfl⟩

/-- `CREATE` of a new table. -/
theorem execCreate_of_init {s : CreateStmt} {schema : Schema} {t : Table} (hname : s.tableName ≠ [])
    (hnew : e.tables s.tableName = none) (hschema : columnDefs s.columns = .ok schema)
    (ht : Table.init e.dataDir s.tableName schema e.disk = .ok t) :
    e.execCreate s = .ok (e.setTable s.tableName t e.disk, ⟨.returned 0 none, []⟩) := by
  simp only [execCreate, hname, hnew, hschema, ht, Option.isSome_none, Bool.false_eq_true, if_false,
    Bind.bind, Except.bind, Pure.pure, Except.pure]

/-- What a statement does to an executor: nothing, or it changes one table. -/
theorem exec_cases {s : Statement} {o : Outcome} (h : exec p e s = .ok (e', o)) :
    e' = e ∨
      (s.type = .create ∧ ∃ schema t, s.createStmt.tableName ≠ [] ∧
        e.tables s.createStmt.tableName = none ∧
        columnDefs s.createStmt.columns = .ok schema ∧
        Table.init e.dataDir s.createStmt.tableName schema e.disk = .ok t ∧
        e' = e.setTable s.createStmt.tableName t e.disk) ∨
      (s.type = .insert ∧ ∃ t r, e.tables (upper s.insertStmt.tableName) = some t ∧
        insertTuples p (tuples s.insertStmt.rawValues) t e.disk = .ok r ∧
        e' = e.setTable (upper s.insertStmt.tableName) r.1 r.2.1) ∨
      (s.type = .delete ∧ ∃ t, e.tables (upper s.deleteStmt.tableName) = some t ∧
        e' = e.setTable (upper s.deleteStmt.tableName) t.clear e.disk) := by
  unfold exec at h
  cases htype : s.type with
  | create =>
    simp only [htype] at h
    rcases execCreate_cases h with ⟨rfl, -⟩ | hnew
    · exact Or.inl rfl
    · exact Or.inr (Or.inl ⟨rfl, hnew⟩)
  | insert =>
    simp only [htype, execInsert] at h
    cases ht : e.getTable s.insertStmt.tableName with
    | error err =>
      simp only [ht] at h
      cases h
      exact Or.inl rfl
    | ok t =>
      simp only [ht] at h
      obtain ⟨r, hr, h⟩ := bind_eq_ok h
      cases h
      exact Or.inr (Or.inr (Or.inl ⟨rfl, t, r, getTable_eq_ok.mp ht, hr, rfl⟩))
  | select =>
    simp only [htype] at h
    obtain ⟨o', -, h⟩ := bind_eq_ok h
    cases h
    exact Or.inl rfl
  | delete =>
    simp only [htype, execDelete] at h
    cases ht : e.getTable s.deleteStmt.tableName with
    | error err =>
      simp only [ht] at h
      cases h
      exact Or.inl rfl
    | ok t =>
      simp only [ht] at h
      cases h
      exact Or.inr (Or.inr (Or.inr ⟨rfl, t, getTable_eq_ok.mp ht, rfl⟩))
  | none =>
    simp only [htype] at h
    cases h
    exact Or.inl rfl

/-- Every statement keeps the tables sound. -/
theorem Sound.exec (h : e.Sound) {s : Statement} {o : Outcome}
    (hexec : Executor.exec p e s = .ok (e', o)) : e'.Sound := by
  rcases exec_cases hexec with rfl | ⟨-, schema, t, -, -, -, ht, rfl⟩ | ⟨-, t, r, ht, hr, rfl⟩ |
    ⟨-, t, ht, rfl⟩
  · exact h
  · exact h.setTable _ (init_sound _ _ ht) _
  · exact h.setTable _ (insertTuples_grown (h _ t ht) hr).sound _
  · exact h.setTable _ (h _ t ht).clear _

theorem sqlStep_cases {sql : Text} (h : sqlStep p e sql = .ok e') :
    ∃ o, exec p e (Parser.parse sql) = .ok (e', o) := by
  obtain ⟨⟨e'', o⟩, hexec, h⟩ := bind_eq_ok h
  cases h
  exact ⟨o, hexec⟩

theorem Reachable.sound (h : Reachable p e) : e.Sound := by
  obtain ⟨dataDir, disk, sqls, hrun⟩ := h
  refine run_induction Sound ?_ ?_ hrun
  · intro e sql e' hsound hstep
    obtain ⟨o, hexec⟩ := sqlStep_cases hstep
    exact hsound.exec hexec
  · intro name t ht
    cases ht

end FlexQL.Executor
