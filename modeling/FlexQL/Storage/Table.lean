import FlexQL.Storage.Row
import FlexQL.Storage.ColumnStore
import FlexQL.Index.BPTree

/-!
# Tables

A `Table` keeps one column store for each column of its schema, and a primary key index when the
first column is called `ID`. The files are named by their paths. Column stores with one path share
their bytes; the path of an index belongs to one table only, so a tree keeps its nodes itself.

A read moves pages inside a cache and changes nothing else. No later result depends on the order
of the pages in a cache, so reads leave the table as it is here.
-/

namespace FlexQL

open Text

/-- The content of the files of a data directory, by path. -/
structure Disk where
  columns : Text → ByteMemory
  /-- What the index files hold before a tree is constructed on them. -/
  indexes : Text → ℕ → BPTNode

namespace Disk

/-- New files, which are all zero. -/
def blank : Disk := ⟨fun _ _ => 0, fun _ _ => .init .leaf⟩

def setColumn (disk : Disk) (path : Text) (mem : ByteMemory) : Disk :=
  { disk with columns := Function.update disk.columns path mem }

@[simp] theorem setColumn_same (disk : Disk) (path : Text) (mem : ByteMemory) :
    (disk.setColumn path mem).columns path = mem := Function.update_self ..

theorem setColumn_ne {disk : Disk} {path path' : Text} (mem : ByteMemory) (h : path' ≠ path) :
    (disk.setColumn path mem).columns path' = disk.columns path' := Function.update_of_ne h ..

end Disk

structure IndexManager where
  indexes : Text → Option BPTree

namespace IndexManager

def init : IndexManager := ⟨fun _ => none⟩

def setIndex (m : IndexManager) (name : Text) (tree : BPTree) : IndexManager :=
  ⟨Function.update m.indexes name (some tree)⟩

def createIndex (m : IndexManager) (name : Text) (file : ℕ → BPTNode) : Except Fault IndexManager := do
  let tree ← BPTree.init file
  return m.setIndex name tree

def getIndex (m : IndexManager) (name : Text) : Option BPTree := m.indexes name

@[simp] theorem getIndex_setIndex (m : IndexManager) (name : Text) (tree : BPTree) :
    (m.setIndex name tree).getIndex name = some tree := Function.update_self ..

end IndexManager

structure Table where
  name : Text
  schema : Schema
  columns : List ColumnStore
  indexManager : IndexManager

namespace Table

/-- The name of the column that makes a table get an index. -/
def idName : Text := str "ID"

/-- The name under which that index is kept. -/
def pkName : Text := str "PK"

/-- The file of a column. -/
def columnPath (dataDir name column : Text) : Text :=
  dataDir ++ str "/" ++ name ++ str "_" ++ column ++ str ".bin"

/-- The file of the primary key index. -/
def pkPath (dataDir name : Text) : Text := dataDir ++ str "/" ++ name ++ str "_PK.idx"

/-- `columns_.push_back(std::make_unique<ColumnStore>(path))` for all columns. -/
def initColumns (dataDir name : Text) (disk : Disk) : Schema → Except Fault (List ColumnStore)
  | [] => .ok []
  | c :: schema => do
    let path := columnPath dataDir name c.name
    let column ← ColumnStore.init path (disk.columns path)
    let columns ← initColumns dataDir name disk schema
    return column :: columns

/-- The constructor. -/
def init (dataDir name : Text) (schema : Schema) (disk : Disk) : Except Fault Table := do
  let columns ← initColumns dataDir name disk schema
  match schema with
  | [] => .error .outOfBounds
  | c :: _ =>
    let indexManager ←
      if c.name = idName then
        IndexManager.init.createIndex pkName (disk.indexes (pkPath dataDir name))
      else pure IndexManager.init
    return ⟨name, schema, columns, indexManager⟩

/-- `columns_[i]->insert_fixed(buf, sz)` for a value. -/
def insertColumn (t : Table) (disk : Disk) (i : ℕ) (v : Value) : Except Fault (Table × Disk) :=
  match t.columns[i]? with
  | none => .error .outOfBounds
  | some column => do
    let (column, mem) ← column.insertFixed (disk.columns column.filePath) v.bytes
    return ({ t with columns := t.columns.set i column }, disk.setColumn column.filePath mem)

/-- The loop of `insert_row`, from column `i` on. It ends with the shorter of the columns and the
values. -/
def insertColumns (t : Table) (disk : Disk) (i : ℕ) : List Value → Except Fault (Table × Disk)
  | [] => .ok (t, disk)
  | v :: values =>
    if i < t.schema.length then do
      let (t, disk) ← t.insertColumn disk i v
      t.insertColumns disk (i + 1) values
    else .ok (t, disk)

/-- The last part of `insert_row`. -/
def insertKey (t : Table) (row : Row) (rid : ℕ) : Except Fault Table :=
  match t.schema with
  | [] => .error .outOfBounds
  | c :: _ =>
    if c.name = idName then
      match row.values with
      | [] => .error .outOfBounds
      | v :: _ =>
        match t.indexManager.getIndex pkName with
        | none => .error .nullPointer
        | some tree => do
          let tree ← tree.insert v.bits.toNat rid
          return { t with indexManager := t.indexManager.setIndex pkName tree }
    else .ok t

/-- `columns_[0]->get_total_rows()`, the number of the next row. -/
def nextRid (t : Table) : Except Fault ℕ :=
  match t.columns[0]? with
  | none => .error .outOfBounds
  | some column => .ok column.getTotalRows

def insertRow (t : Table) (disk : Disk) (row : Row) : Except Fault (Table × Disk) := do
  let rid ← t.nextRid
  let (t, disk) ← t.insertColumns disk 0 row.values
  let t ← t.insertKey row rid
  return (t, disk)

/-- The index is not touched. -/
def clear (t : Table) : Table := { t with columns := t.columns.map ColumnStore.clear }

def getColumn (t : Table) (index : ℕ) : Option ColumnStore := t.columns[index]?

/-- `read_at` of a `ColumnReader` for a column. -/
def readAt (t : Table) (disk : Disk) (c rid size : ℕ) : Except Fault (Option (List UInt8)) :=
  match t.getColumn c with
  | none => .error .nullPointer
  | some column => do
    let (out, _) ← ColumnReader.readAt column.cache (disk.columns column.filePath) rid size
    return out

/-- `get_column(c)->get_total_rows()`. -/
def totalRows (t : Table) (c : ℕ) : Except Fault ℕ :=
  match t.getColumn c with
  | none => .error .nullPointer
  | some column => .ok column.getTotalRows

end Table

end FlexQL
