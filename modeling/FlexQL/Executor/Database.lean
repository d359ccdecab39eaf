import FlexQL.Executor.Isolation
import FlexQL.Executor.JoinSpec
import FlexQL.Executor.SelectSpec
import FlexQL.Lib.Simulation

/-!
# The database behind the executor

What the statements mean without pages, caches, indexes and hash tables: a table is a list of rows,
`INSERT` appends to it, `DELETE` empties it, and a query filters, sorts and projects the rows of a
table or of the pairs that a join makes. The keys of deleted rows are kept only to say which
queries the executor can answer.
-/

namespace FlexQL

open Text Executor

structure Relation where
  schema : Schema
  /-- The rows as they are read, in the order of their insertion. -/
  rows : List Row := []
  /-- The keys of the rows that were deleted. -/
  deleted : List ℕ := []
  deriving DecidableEq, Repr

namespace Relation

/-- Behind the insertion of rows. -/
def append (p : Platform) (r : Relation) (rows : List Row) : Relation :=
  { r with rows := r.rows ++ rows.map (storedRow p) }

/-- Behind the deletion of all rows. -/
def clear (r : Relation) : Relation :=
  { r with rows := [], deleted := r.deleted ++ r.rows.map Table.rowKey }

/-- The rows of two tables with the same number in two columns. -/
def join (r r2 : Relation) (left right : Text) : List Row :=
  match columnIndex r.schema left, columnIndex r2.schema right with
  | some c, some c2 => NestedLoop.pairs (fun row row2 => key c row = key c2 row2)
      (fun row row2 => ⟨row.values ++ row2.values⟩) r.rows r2.rows
  | _, _ => []

/-- The first column that is asked for and does not exist. A star is let through. -/
def unknown (r : Relation) (columns : List Text) : Option Text :=
  columns.find? fun name => (∀ d ∈ r.schema, d.name ≠ name) ∧ name ≠ str "*"

end Relation

/-- The rows of the tuples in front of the first one that cannot be converted, and the exception
that this one causes. -/
def readTuples (p : Platform) (schema : Schema) : List Text → List Row × Option Exn
  | [] => ([], none)
  | tuple :: ts =>
    match parseTuple p schema tuple with
    | .ok (.ok row) => (row :: (readTuples p schema ts).1, (readTuples p schema ts).2)
    | .ok (.error exn) => ([], some exn)
    | .error _ => ([], none)

/-- The tables, by their names. -/
abbrev Database := Text → Option Relation

namespace Database

def empty : Database := fun _ => none

/-- The table, or the error text. -/
def find (db : Database) (name : Text) : Except Text Relation :=
  match db (upper name) with
  | none => .error (str "Table not found: " ++ upper name)
  | some r => .ok r

/-- The rows that a query starts from and their schema, or the error text. -/
def source (db : Database) (s : SelectStmt) : Except Text (Schema × List Row) := do
  let r ← db.find s.tableName
  if s.hasJoin then
    let r2 ← db.find s.join.table
    return (r.schema ++ r2.schema, r.join r2 s.join.onLeft s.join.onRight)
  else match r.unknown s.columns with
    | some name => .error (str "Unknown column: " ++ name)
    | none => return (r.schema, r.rows)

/-! ## Statements -/

def create (db : Database) (s : CreateStmt) : Database :=
  if s.tableName = [] ∨ (db s.tableName).isSome then db
  else match columnDefs s.columns with
    | .ok schema => Function.update db s.tableName (some { schema := schema })
    | .error _ => db

def insert (p : Platform) (db : Database) (s : InsertStmt) : Database :=
  match db.find s.tableName with
  | .error _ => db
  | .ok r => Function.update db (upper s.tableName)
      (some (r.append p (readTuples p r.schema (tuples s.rawValues)).1))

def delete (db : Database) (s : DeleteStmt) : Database :=
  match db.find s.tableName with
  | .error _ => db
  | .ok r => Function.update db (upper s.tableName) (some r.clear)

/-- The database behind a statement. -/
def next (p : Platform) (db : Database) (s : Statement) : Database :=
  match s.type with
  | .create => db.create s.createStmt
  | .insert => db.insert p s.insertStmt
  | .delete => db.delete s.deleteStmt
  | _ => db

/-- What a statement may answer. -/
inductive Permits (p : Platform) (db : Database) (s : Statement) : Outcome → Prop
  | none (htype : s.type = .none) : Permits p db s ⟨.returned 1 none, []⟩
  | unnamed (htype : s.type = .create) (hname : s.createStmt.tableName = []) :
      Permits p db s ⟨.returned 1 (some (str "Missing table name")), []⟩
  | created (htype : s.type = .create) (hname : s.createStmt.tableName ≠ []) :
      Permits p db s ⟨.returned 0 none, []⟩
  | insertRefused {err : Text} (htype : s.type = .insert)
      (hr : db.find s.insertStmt.tableName = .error err) : Permits p db s ⟨.returned 1 (some err), []⟩
  | inserted {r : Relation} (htype : s.type = .insert) (hr : db.find s.insertStmt.tableName = .ok r)
      (hall : (readTuples p r.schema (tuples s.insertStmt.rawValues)).2 = .none) :
      Permits p db s ⟨.returned 0 none, []⟩
  | insertThrown {r : Relation} {exn : Exn} (htype : s.type = .insert)
      (hr : db.find s.insertStmt.tableName = .ok r)
      (hexn : (readTuples p r.schema (tuples s.insertStmt.rawValues)).2 = some exn) :
      Permits p db s ⟨.thrown exn, []⟩
  | selectRefused {err : Text} (htype : s.type = .select) (hs : db.source s.selectStmt = .error err) :
      Permits p db s ⟨.returned 1 (some err), []⟩
  | selected {schema : Schema} {rows : List Row} {emitted : List (List Text)} (htype : s.type = .select)
      (hs : db.source s.selectStmt = .ok (schema, rows))
      (hanswers : Answers schema s.selectStmt rows emitted) : Permits p db s ⟨.returned 0 none, emitted⟩
  | deleteRefused {err : Text} (htype : s.type = .delete)
      (hr : db.find s.deleteStmt.tableName = .error err) : Permits p db s ⟨.returned 1 (some err), []⟩
  | deleted {r : Relation} (htype : s.type = .delete) (hr : db.find s.deleteStmt.tableName = .ok r) :
      Permits p db s ⟨.returned 0 none, []⟩

/-- The statements of SQL, as a specification of the executor. -/
def spec (p : Platform) : Simulation.Spec Database Statement Outcome := ⟨next p, Permits p⟩

/-! ## The statements that the executor takes -/

/-- A query for one key finds a table with the key in front, at most one row with it, and no deleted
one, to which the index would still lead. -/
def LooksUpOne (r : Relation) (s : SelectStmt) : Prop :=
  ∀ w id, asksForId s = some w → stoll w = .ok id →
    (∃ schema, r.schema = ⟨Table.idName, .decimal⟩ :: schema) ∧ id.toNat ∉ r.deleted ∧
      (r.rows.filter fun row => Table.rowKey row = id.toNat).length ≤ 1

/-- The columns of a join hold numbers. -/
def JoinsNumbers (r r2 : Relation) (left right : Text) : Prop :=
  ∀ c c2 d d2, columnIndex r.schema left = some c → columnIndex r2.schema right = some c2 →
    r.schema[c]? = some d → r2.schema[c2]? = some d2 → d.type = .decimal ∧ d2.type = .decimal

/-- The condition on a statement. -/
structure Proper (db : Database) (s : Statement) : Prop where
  /-- A new table has columns, no floating point numbers, and files of its own. -/
  create : s.type = .create → s.createStmt.tableName ≠ [] → db s.createStmt.tableName = none →
    ∃ schema, columnDefs s.createStmt.columns = .ok schema ∧ schema ≠ [] ∧
      (∀ d ∈ schema, d.type ≠ .float) ∧ (schema.map ColumnDef.name).Nodup ∧
      ∀ name r, db name = some r → ∀ d ∈ schema, ∀ d' ∈ r.schema,
        fileName s.createStmt.tableName d.name ≠ fileName name d'.name
  /-- A tuple has as many values as its table has columns. -/
  insert : s.type = .insert → ∀ r, db.find s.insertStmt.tableName = .ok r →
    ∀ tuple ∈ tuples s.insertStmt.rawValues, (getLines (ch ',') tuple).length = r.schema.length
  /-- The files have room for the rows, and the index also for the keys of deleted ones. -/
  room : s.type = .insert → ∀ r, db.find s.insertStmt.tableName = .ok r →
    r.rows.length + r.deleted.length + (tuples s.insertStmt.rawValues).length ≤ Table.columnRoom
  /-- A query is well formed for the rows it starts from. -/
  select : s.type = .select → ∀ schema rows, db.source s.selectStmt = .ok (schema, rows) →
    WellFormed schema s.selectStmt
  lookup : s.type = .select → ∀ r, db.find s.selectStmt.tableName = .ok r → LooksUpOne r s.selectStmt
  join : s.type = .select → s.selectStmt.hasJoin = true → ∀ r r2, db.find s.selectStmt.tableName = .ok r →
    db.find s.selectStmt.join.table = .ok r2 →
      JoinsNumbers r r2 s.selectStmt.join.onLeft s.selectStmt.join.onRight

variable {p : Platform} {db : Database} {stmt : Statement}

theorem Proper.of_create (htype : stmt.type = .create) {schema : Schema}
    (hschema : columnDefs stmt.createStmt.columns = .ok schema) (hne : schema ≠ [])
    (hfloat : ∀ d ∈ schema, d.type ≠ .float) (hnodup : (schema.map ColumnDef.name).Nodup)
    (hfiles : ∀ name r, db name = some r → ∀ d ∈ schema, ∀ d' ∈ r.schema,
      fileName stmt.createStmt.tableName d.name ≠ fileName name d'.name) : db.Proper stmt where
  create := fun _ _ _ => ⟨schema, hschema, hne, hfloat, hnodup, hfiles⟩
  insert := by simp [htype]
  room := by simp [htype]
  select := by simp [htype]
  lookup := by simp [htype]
  join := by simp [htype]

theorem Proper.of_insert (htype : stmt.type = .insert) {r : Relation}
    (hr : db.find stmt.insertStmt.tableName = .ok r)
    (harity : ∀ tuple ∈ tuples stmt.insertStmt.rawValues, (getLines (ch ',') tuple).length = r.schema.length)
    (hroom : r.rows.length + r.deleted.length + (tuples stmt.insertStmt.rawValues).length ≤ Table.columnRoom) :
    db.Proper stmt where
  create := by simp [htype]
  insert := fun _ r' hr' => Except.ok.inj (hr.symm.trans hr') ▸ harity
  room := fun _ r' hr' => Except.ok.inj (hr.symm.trans hr') ▸ hroom
  select := by simp [htype]
  lookup := by simp [htype]
  join := by simp [htype]

theorem Proper.of_select (htype : stmt.type = .select) (hjoin : stmt.selectStmt.hasJoin = false)
    {r : Relation} (hr : db.find stmt.selectStmt.tableName = .ok r) (hwf : WellFormed r.schema stmt.selectStmt)
    (hlookup : LooksUpOne r stmt.selectStmt) : db.Proper stmt where
  create := by simp [htype]
  insert := by simp [htype]
  room := by simp [htype]
  select := by
    intro _ schema rows hs
    simp only [source, hr, hjoin, Bool.false_eq_true, if_false, Bind.bind, Except.bind] at hs
    split at hs
    · cases hs
    · cases hs
      exact hwf
  lookup := fun _ r' hr' => Except.ok.inj (hr.symm.trans hr') ▸ hlookup
  join := by simp [hjoin]

theorem create_of_some {s : CreateStmt} (h : s.tableName = [] ∨ (db s.tableName).isSome = true) :
    db.create s = db := if_pos h

theorem create_of_none {s : CreateStmt} {schema : Schema} (hname : s.tableName ≠ [])
    (hnew : db s.tableName = none) (hschema : columnDefs s.columns = .ok schema) :
    db.create s = Function.update db s.tableName (some { schema := schema }) := by
  simp [create, hname, hnew, hschema]

theorem insert_of_find {s : InsertStmt} {r : Relation} (h : db.find s.tableName = .ok r) :
    db.insert p s = Function.update db (upper s.tableName)
      (some (r.append p (readTuples p r.schema (tuples s.rawValues)).1)) := by
  simp only [insert, h]

theorem delete_of_find {s : DeleteStmt} {r : Relation} (h : db.find s.tableName = .ok r) :
    db.delete s = Function.update db (upper s.tableName) (some r.clear) := by
  simp only [delete, h]

end Database

end FlexQL
