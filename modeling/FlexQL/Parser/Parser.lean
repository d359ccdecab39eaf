import FlexQL.Lib.Text

/-!
# The parser

`Parser::parse` reads a statement by searching its text for keywords. It never fails: a text that
it does not understand becomes a statement of type `none`.
-/

namespace FlexQL

open Text

inductive StatementType
  | none
  | create
  | insert
  | select
  | delete
  deriving DecidableEq, Repr

/-- `CreateStmt::Col`. -/
structure CreateCol where
  name : Text
  typeStr : Text
  deriving DecidableEq, Repr

structure CreateStmt where
  tableName : Text := []
  columns : List CreateCol := []
  deriving DecidableEq, Repr

structure InsertStmt where
  tableName : Text := []
  /-- The text behind `VALUES`. -/
  rawValues : Text := []
  deriving DecidableEq, Repr

structure WhereClause where
  columnName : Text
  op : Text
  valueStr : Text
  deriving DecidableEq, Repr

structure OrderBy where
  column : Text := []
  ascending : Bool := true
  deriving DecidableEq, Repr

structure Join where
  table : Text := []
  onLeft : Text := []
  onRight : Text := []
  deriving DecidableEq, Repr

structure SelectStmt where
  columns : List Text := []
  tableName : Text := []
  filters : List WhereClause := []
  join : Join := {}
  orderBy : OrderBy := {}
  hasJoin : Bool := false
  hasOrder : Bool := false
  deriving DecidableEq, Repr

structure DeleteStmt where
  tableName : Text := []
  deriving DecidableEq, Repr

structure Statement where
  type : StatementType := .none
  createStmt : CreateStmt := {}
  insertStmt : InsertStmt := {}
  selectStmt : SelectStmt := {}
  deleteStmt : DeleteStmt := {}
  deriving DecidableEq, Repr

namespace Parser

/-- A byte of `" \t\n\r"`. -/
def isBlank (b : UInt8) : Bool := b = 32 || b = 9 || b = 10 || b = 13

/-- Trim, take what stands behind the last dot, cut at the first delimiter and write in capitals. -/
def stripDelimiters (s : Text) : Text :=
  let s := trim isBlank s
  let s := (s.reverse.takeWhile (· ≠ ch '.')).reverse
  let s := s.takeWhile fun b => !(str "(,; ").contains b
  upper s

/-- `iss >> word`, where a failed extraction leaves the word as it is. -/
def readWord (word rest : Text) : Text × Text := (extract rest).getD (word, [])

/-- The text between the first opening and the last closing parenthesis. When the last closing one
stands before the first opening one, the length wraps around and the text goes to the end. -/
def columnList (sql : Text) : Option Text :=
  match sql.idxOf? (ch '('), sql.reverse.idxOf? (ch ')') with
  | some startP, some fromEnd =>
    let endP := sql.length - 1 - fromEnd
    let rest := sql.drop (startP + 1)
    some (if startP < endP then rest.take (endP - startP - 1) else rest)
  | _, _ => none

/-- `css >> col_name >> type` for one definition. -/
def parseCol (colDef : Text) : Option CreateCol := do
  let (colName, rest) ← extract colDef
  let (type, _) ← extract rest
  return ⟨stripDelimiters colName, stripDelimiters type⟩

def parseCreate (sql rest : Text) (word : Text) : CreateStmt :=
  let (word, rest) := readWord word rest -- TABLE
  let (word, rest) := readWord word rest -- IF or the name
  let word := if upper word = str "IF" then
      let (word, rest) := readWord word rest -- NOT
      let (word, rest) := readWord word rest -- EXISTS
      (readWord word rest).1
    else word
  { tableName := stripDelimiters word
    columns := match columnList sql with
      | none => []
      | some cols => (getLines (ch ',') cols).filterMap parseCol }

/-- The second word behind the current one. -/
def secondWord (word rest : Text) : Text :=
  let (word, rest) := readWord word rest
  (readWord word rest).1

def parseInsert (sql rest : Text) (word : Text) : InsertStmt where
  tableName := stripDelimiters (secondWord word rest)
  rawValues := match find (str "VALUES") sql with
    | none => []
    | some pos => sql.drop (pos + 6)

/-- The text behind the first occurrence of a keyword. -/
def behind (keyword s : Text) : Option Text := (find keyword s).map fun pos => s.drop (pos + keyword.length)

/-- The text before the first occurrence of a keyword, or all of it. -/
def before (keyword s : Text) : Text :=
  match find keyword s with
  | none => s
  | some pos => s.take pos

def parseJoin (rest : Text) : Option Join := do
  let joinPart ← behind (str " INNER JOIN ") rest
  match find (str " ON ") joinPart with
  | none => return {}
  | some onPos =>
    let condPart := joinPart.drop (onPos + 4)
    let onCond := match find (str " WHERE ") condPart with
      | some pos => condPart.take pos
      | none => before (str " ORDER BY ") condPart
    let join : Join := { table := stripDelimiters (joinPart.take onPos) }
    match onCond.idxOf? (ch '=') with
    | none => return join
    | some eqPos => return { join with
        onLeft := stripDelimiters (onCond.take eqPos)
        onRight := stripDelimiters (onCond.drop (eqPos + 1)) }

/-- `while (wss >> col >> op >> val)`. Every round takes at least three bytes, so the length of the
text bounds their number. -/
def parseFilters : ℕ → Text → List WhereClause
  | 0, _ => []
  | fuel + 1, s =>
    match extract s with
    | none => []
    | some (col, s) => match extract s with
      | none => []
      | some (op, s) => match extract s with
        | none => []
        | some (val, s) =>
          if stripDelimiters col = str "AND" then parseFilters fuel s
          else ⟨stripDelimiters col, op, val⟩ :: match extract s with
            | none => []
            | some (_, s) => parseFilters fuel s

def parseOrder (rest : Text) : Option OrderBy := do
  let s ← behind (str " ORDER BY ") rest
  match extract s with
  | none => return {}
  | some (column, s) => match extract s with
    | none => return { column := stripDelimiters column }
    | some (dir, _) => return {
        column := stripDelimiters column
        ascending := stripDelimiters dir ≠ str "DESC" }

/-- Only the first line behind the keyword is read. -/
def parseSelect (rest : Text) : SelectStmt :=
  let line := rest.takeWhile (· ≠ ch '\n')
  match find (str " FROM ") line with
  | none => {}
  | some fromPos =>
    let rest := line.drop (fromPos + 6)
    { columns := (getLines (ch ',') (line.take fromPos)).map stripDelimiters
      tableName := match extract rest with
        | none => []
        | some (word, _) => stripDelimiters word
      filters := match behind (str " WHERE ") rest with
        | none => []
        | some clause =>
          let clause := before (str " ORDER BY ") clause
          parseFilters clause.length clause
      join := (parseJoin rest).getD {}
      orderBy := (parseOrder rest).getD {}
      hasJoin := (parseJoin rest).isSome
      hasOrder := (parseOrder rest).isSome }

/-- The final validation. -/
def isValid (stmt : Statement) : Bool :=
  match stmt.type with
  | .create => stmt.createStmt.tableName ≠ [] && stmt.createStmt.columns ≠ []
  | .insert => stmt.insertStmt.tableName ≠ [] && stmt.insertStmt.rawValues ≠ []
  | .select => stmt.selectStmt.tableName ≠ [] && stmt.selectStmt.columns ≠ []
  | .delete => stmt.deleteStmt.tableName ≠ []
  | .none => false

def parse (sql : Text) : Statement :=
  let cleanSql := dropEnd (fun b => b = ch ';' || isSpace b) sql
  match extract cleanSql with
  | none => {}
  | some (word, rest) =>
    let word := upper word
    let stmt : Statement :=
      if word = str "CREATE" then
        { type := .create, createStmt := parseCreate cleanSql rest word }
      else if word = str "INSERT" then
        { type := .insert, insertStmt := parseInsert cleanSql rest word }
      else if word = str "DELETE" then
        { type := .delete, deleteStmt := ⟨stripDelimiters (secondWord word rest)⟩ }
      else if word = str "SELECT" then
        { type := .select, selectStmt := parseSelect rest }
      else {}
    if isValid stmt then stmt else { stmt with type := .none }

end Parser

end FlexQL
