import FlexQL.Executor.Platform
import FlexQL.Parser.Parser
import FlexQL.Storage.Table

/-!
# The executor

`Executor::exec` runs one statement. A statement returns a code and perhaps an error text, or an
exception of a number conversion escapes from it; a `SELECT` also emits rows.
-/

namespace FlexQL

open ByteMemory Text

/-- The way a statement ends. -/
inductive Result
  /-- The code, and the error text when one was set. -/
  | returned (code : ℕ) (err : Option Text)
  | thrown (exn : Exn)
  deriving DecidableEq, Repr

structure Outcome where
  result : Result
  /-- The rows passed to the callback. -/
  rows : List (List Text) := []
  deriving DecidableEq, Repr

structure Executor where
  dataDir : Text
  /-- `tables_`. -/
  tables : Text → Option Table
  disk : Disk

namespace Executor

/-- The constructor. -/
def init (dataDir : Text) (disk : Disk) : Executor := ⟨dataDir, fun _ => none, disk⟩

/-- The table, or the error text. -/
def getTable (e : Executor) (name : Text) : Except Text Table :=
  match e.tables (upper name) with
  | none => .error (str "Table not found: " ++ upper name)
  | some t => .ok t

/-- Put back a table and the disk it was changed on. -/
def setTable (e : Executor) (name : Text) (t : Table) (disk : Disk) : Executor :=
  { e with tables := Function.update e.tables name (some t), disk := disk }

@[simp] theorem setTable_same (e : Executor) (name : Text) (t : Table) (disk : Disk) :
    (e.setTable name t disk).tables name = some t := Function.update_self ..

theorem setTable_ne (e : Executor) {name name' : Text} (t : Table) (disk : Disk)
    (h : name' ≠ name) : (e.setTable name t disk).tables name' = e.tables name' :=
  Function.update_of_ne h ..

/-! ## CREATE -/

def columnType (typeStr : Text) : ColumnType :=
  if typeStr = str "DECIMAL" ∨ typeStr = str "INT" then .decimal
  else if typeStr = str "FLOAT" then .float
  else .varchar

/-- `strncpy(d.name, col.name.c_str(), 31)` into an uninitialised array of 32 bytes. A name of 31
or more bytes is left without a terminator. -/
def columnDef (col : CreateCol) : Except Fault ColumnDef :=
  let name := cStr col.name
  if name.length < 31 then .ok ⟨name, columnType col.typeStr⟩ else .error .unterminated

def columnDefs : List CreateCol → Except Fault Schema
  | [] => .ok []
  | col :: cols => do
    let d ← columnDef col
    let ds ← columnDefs cols
    return d :: ds

def execCreate (e : Executor) (s : CreateStmt) : Except Fault (Executor × Outcome) := do
  if s.tableName = [] then return (e, ⟨.returned 1 (some (str "Missing table name")), []⟩)
  if (e.tables s.tableName).isSome then return (e, ⟨.returned 0 none, []⟩)
  let schema ← columnDefs s.columns
  let t ← Table.init e.dataDir s.tableName schema e.disk
  return (e.setTable s.tableName t e.disk, ⟨.returned 0 none, []⟩)

/-! ## INSERT -/

/-- The texts between the parentheses of the tuples. Only a closed tuple is a tuple here; the number
of bytes bounds their number. -/
def tuplesFrom : ℕ → Text → List Text
  | 0, _ => []
  | fuel + 1, raw =>
    match after (ch '(') raw with
    | none => []
    | some raw => match cut (ch ')') raw with
      | none => []
      | some (tuple, raw) => tuple :: tuplesFrom fuel raw

def tuples (raw : Text) : List Text := tuplesFrom raw.length raw

/-- `val` without the quotes around it. -/
def unquote (val : Text) : Text :=
  if val.length ≥ 2 ∧ val.head? = some (ch '\'') ∧ val.getLast? = some (ch '\'') then
    (val.drop 1).take (val.length - 2)
  else val

/-- One value of a tuple, for a column of the given type. -/
def parseValue (p : Platform) (type : ColumnType) (val : Text) : Except Exn Value :=
  let val := trim isSpace val
  match type with
  | .varchar => .ok ⟨.varchar, p.uninitialised, unquote val⟩
  | .decimal | .int => do return ⟨.decimal, ← stoll val, []⟩
  | _ => do
    -- only the low half of the union is written
    return ⟨.float, (p.uninitialised &&& ~~~(0xFFFFFFFF : BitVec 64)) ||| (← p.stof val).zeroExtend 64, []⟩

/-- The values of a tuple: the first exception, or a value without a column, ends the loop. -/
def parseValues (p : Platform) : Schema → List Text → Except Fault (Except Exn (List Value))
  | _, [] => .ok (.ok [])
  | [], _ :: _ => .error .outOfBounds
  | c :: schema, val :: vals =>
    match parseValue p c.type val with
    | .error exn => .ok (.error exn)
    | .ok v => do
      match ← parseValues p schema vals with
      | .error exn => return .error exn
      | .ok vs => return .ok (v :: vs)

def parseTuple (p : Platform) (schema : Schema) (tuple : Text) : Except Fault (Except Exn Row) := do
  match ← parseValues p schema (getLines (ch ',') tuple) with
  | .error exn => return .error exn
  | .ok values => return .ok ⟨values⟩

/-- The loop over the tuples. An exception leaves the rows before it in the table. -/
def insertTuples (p : Platform) : List Text → Table → Disk → Except Fault (Table × Disk × Result)
  | [], t, disk => .ok (t, disk, .returned 0 none)
  | tuple :: rest, t, disk => do
    match ← parseTuple p t.schema tuple with
    | .error exn => return (t, disk, .thrown exn)
    | .ok row =>
      let (t, disk) ← t.insertRow disk row
      insertTuples p rest t disk

def execInsert (p : Platform) (e : Executor) (s : InsertStmt) :
    Except Fault (Executor × Outcome) :=
  match e.getTable s.tableName with
  | .error err => .ok (e, ⟨.returned 1 (some err), []⟩)
  | .ok t => do
    let (t, disk, result) ← insertTuples p (tuples s.rawValues) t e.disk
    return (e.setTable (upper s.tableName) t disk, ⟨result, []⟩)

/-! ## SELECT -/

/-- The value of column `c` of a row. -/
def materializeValue (p : Platform) (t : Table) (disk : Disk) (rid : ℕ) (type : ColumnType)
    (c : ℕ) : Except Fault Value := do
  match ← t.readAt disk c rid type.readSize with
  | none => return ⟨type, p.uninitialised, []⟩
  | some buf =>
    if type = .varchar then return ⟨type, p.uninitialised, cStr buf⟩
    else return ⟨type, BitVec.ofNat 64 (decode buf), []⟩

/-- `materialize_row` from column `c` on. -/
def materializeFrom (p : Platform) (t : Table) (disk : Disk) (rid : ℕ) :
    Schema → ℕ → Except Fault (List Value)
  | [], _ => .ok []
  | d :: schema, c => do
    let v ← materializeValue p t disk rid d.type c
    let vs ← materializeFrom p t disk rid schema (c + 1)
    return v :: vs

def materializeRow (p : Platform) (t : Table) (disk : Disk) (rid : ℕ) : Except Fault Row := do
  return ⟨← materializeFrom p t disk rid t.schema 0⟩

/-- The rows with the given numbers. -/
def materializeRows (p : Platform) (t : Table) (disk : Disk) : List ℕ → Except Fault (List Row)
  | [] => .ok []
  | rid :: rids => do
    let row ← materializeRow p t disk rid
    let rows ← materializeRows p t disk rids
    return row :: rows

/-- The index of the first column with a name. -/
def columnIndex (schema : Schema) (name : Text) : Option ℕ := schema.findIdx? fun d => d.name = name

/-- The place of a column in a result row: first among the columns of `t`, then, in a join, among
those of `t2`. -/
def resultIndex (t : Table) (t2 : Option Table) (name : Text) : Option ℕ :=
  match columnIndex t.schema name with
  | some i => some i
  | none => match t2 with
    | none => none
    | some t2 => (columnIndex t2.schema name).map (t.schema.length + ·)

namespace HashJoin

/-- The build phase: the numbers stored in a column of `t2`, with their row numbers. -/
def readKeys (t : Table) (disk : Disk) (c : ℕ) : List ℕ → Except Fault (List (ℕ × ℕ))
  | [] => .ok []
  | rid :: rids => do
    match ← t.readAt disk c rid 8 with
    | none => readKeys t disk c rids
    | some buf => return (decode buf, rid) :: (← readKeys t disk c rids)

/-- The row `rid` of `t1` with each row of `t2` in the bucket of its number. -/
def joinRow (p : Platform) (t1 t2 : Table) (disk : Disk) (hashTable : List (ℕ × ℕ))
    (val rid : ℕ) : Except Fault (List Row) :=
  match (hashTable.filter fun q => q.1 = val).map Prod.snd with
  | [] => .ok []
  | bucket => do
    let row1 ← materializeRow p t1 disk rid
    let rows2 ← materializeRows p t2 disk bucket
    return rows2.map fun row2 => ⟨row1.values ++ row2.values⟩

/-- The probe phase, over the rows of `t1`. -/
def probe (p : Platform) (t1 t2 : Table) (disk : Disk) (c1 : ℕ) (hashTable : List (ℕ × ℕ)) :
    List ℕ → Except Fault (List Row)
  | [] => .ok []
  | rid :: rids => do
    match ← t1.readAt disk c1 rid 8 with
    | none => probe p t1 t2 disk c1 hashTable rids
    | some buf =>
      let joined ← joinRow p t1 t2 disk hashTable (decode buf) rid
      return joined ++ (← probe p t1 t2 disk c1 hashTable rids)

def join (p : Platform) (t1 t2 : Table) (disk : Disk) (col1 col2 : Text) :
    Except Fault (List Row) := do
  match columnIndex t1.schema col1, columnIndex t2.schema col2 with
  | some c1, some c2 =>
    let hashTable ← readKeys t2 disk c2 (List.range (← t2.totalRows c2))
    probe p t1 t2 disk c1 hashTable (List.range (← t1.totalRows c1))
  | _, _ => return []

end HashJoin

/-- Whether a value passes a clause. An operator other than the three is passed by every value. -/
def passes (w : WhereClause) (v : Value) : Except Exn Bool :=
  if w.op = str "=" then
    if v.type = .varchar then .ok (v.str = w.valueStr)
    else do return v.bits = (← stoll w.valueStr)
  else if w.op = str ">" then do return (← stoll w.valueStr).toInt < v.bits.toInt
  else if w.op = str ">=" then do return (← stoll w.valueStr).toInt ≤ v.bits.toInt
  else .ok true

/-- Whether a row passes all clauses, up to the first that it fails. A clause for an unknown column
is skipped. -/
def matchesAll (t : Table) (t2 : Option Table) (row : Row) :
    List WhereClause → Except Fault (Except Exn Bool)
  | [] => .ok (.ok true)
  | w :: filters =>
    match resultIndex t t2 w.columnName with
    | none => matchesAll t t2 row filters
    | some i => match row.values[i]? with
      | none => .error .outOfBounds
      | some v => match passes w v with
        | .error exn => .ok (.error exn)
        | .ok true => matchesAll t t2 row filters
        | .ok false => .ok (.ok false)

def filterRows (t : Table) (t2 : Option Table) (filters : List WhereClause) :
    List Row → Except Fault (Except Exn (List Row))
  | [] => .ok (.ok [])
  | row :: rows => do
    match ← matchesAll t t2 row filters with
    | .error exn => return .error exn
    | .ok keep => match ← filterRows t t2 filters rows with
      | .error exn => return .error exn
      | .ok rows => return .ok (if keep then row :: rows else rows)

/-- The comparator of `ORDER BY`. -/
def orderLt (ascending : Bool) (i : ℕ) (a b : Row) : Bool :=
  match a.values[i]?, b.values[i]? with
  | some va, some vb =>
    let lt := if va.type = .varchar then va.str < vb.str else va.bits.toInt < vb.bits.toInt
    if ascending then lt else !lt
  | _, _ => false

def orderRows (p : Platform) (t : Table) (t2 : Option Table) (s : SelectStmt) (rows : List Row) :
    List Row :=
  if s.hasOrder then
    match resultIndex t t2 s.orderBy.column with
    | none => rows
    | some i => p.sort (orderLt s.orderBy.ascending i) rows
  else rows

/-- The text of one value of a result row. -/
def cell (t : Table) (t2 : Option Table) (row : Row) (name : Text) : Text :=
  match (resultIndex t t2 name).bind fun i => row.values[i]? with
  | none => str "NULL"
  | some v => if v.type = .varchar then v.str else ofInt64 v.bits

/-- The callback gets C strings, which end at the first zero byte. -/
def project (t : Table) (t2 : Option Table) (columns : List Text) (row : Row) : List Text :=
  columns.map fun name => cStr (cell t t2 row name)

/-- The first requested column that the table does not have. -/
def unknownColumn (t : Table) (columns : List Text) : Option Text :=
  columns.find? fun name => columnIndex t.schema name = none ∧ name ≠ str "*"

/-- The statement asks for one value of `ID`. -/
def asksForId (s : SelectStmt) : Option Text :=
  match s.hasJoin, s.filters with
  | false, [w] => if w.columnName = Table.idName ∧ w.op = str "=" then some w.valueStr else none
  | _, _ => none

/-- The attempt to use the index: the row it leads to, or nothing. -/
def indexLookup (p : Platform) (t : Table) (disk : Disk) (s : SelectStmt) :
    Except Fault (Option Row) :=
  match asksForId s with
  | none => .ok none
  | some valueStr => match stoll valueStr with
    | .error _ => .ok none
    | .ok id => match t.indexManager.getIndex Table.pkName with
      | none => .error .nullPointer
      | some tree => do
        match ← tree.search id.toNat with
        | (none, _) => return none
        | (some rid, _) => return some (← materializeRow p t disk rid)

/-- Order, project and emit. -/
def emit (p : Platform) (t : Table) (t2 : Option Table) (s : SelectStmt) (rows : List Row) :
    Outcome :=
  ⟨.returned 0 none, (orderRows p t t2 s rows).map (project t t2 s.columns)⟩

/-- The scan of one table: all rows, filtered. -/
def scan (p : Platform) (t : Table) (disk : Disk) (s : SelectStmt) : Except Fault Outcome := do
  let rows ← materializeRows p t disk (List.range (← t.totalRows 0))
  match ← filterRows t none s.filters rows with
  | .error exn => return ⟨.thrown exn, []⟩
  | .ok rows => return emit p t none s rows

def execSelect (p : Platform) (e : Executor) (s : SelectStmt) : Except Fault Outcome :=
  match e.getTable s.tableName with
  | .error err => .ok ⟨.returned 1 (some err), []⟩
  | .ok t =>
    match (if s.hasJoin then none else unknownColumn t s.columns) with
    | some name => .ok ⟨.returned 1 (some (str "Unknown column: " ++ name)), []⟩
    | none => do
      match ← indexLookup p t e.disk s with
      | some row => return emit p t none s [row]
      | none =>
        if s.hasJoin then
          match e.getTable s.join.table with
          | .error err => return ⟨.returned 1 (some err), []⟩
          | .ok t2 =>
            let rows ← HashJoin.join p t t2 e.disk s.join.onLeft s.join.onRight
            match ← filterRows t (some t2) s.filters rows with
            | .error exn => return ⟨.thrown exn, []⟩
            | .ok rows => return emit p t (some t2) s rows
        else scan p t e.disk s

/-! ## DELETE -/

def execDelete (e : Executor) (s : DeleteStmt) : Executor × Outcome :=
  match e.getTable s.tableName with
  | .error err => (e, ⟨.returned 1 (some err), []⟩)
  | .ok t => (e.setTable (upper s.tableName) t.clear e.disk, ⟨.returned 0 none, []⟩)

/-! ## All statements -/

def exec (p : Platform) (e : Executor) (s : Statement) : Except Fault (Executor × Outcome) :=
  match s.type with
  | .create => e.execCreate s.createStmt
  | .insert => e.execInsert p s.insertStmt
  | .select => do return (e, ← e.execSelect p s.selectStmt)
  | .delete => .ok (e.execDelete s.deleteStmt)
  | .none => .ok (e, ⟨.returned 1 none, []⟩)

end Executor

end FlexQL
