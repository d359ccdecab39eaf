import FlexQL.Lib.Grammar
import FlexQL.Lib.Words
import FlexQL.Parser.Parser

/-!
# The grammar of the statements

Syntax trees, the statements that the parser should make of them, and the texts that spell them.
A tree has many texts. `Spacing.free` allows any white space between two tokens and any letter case
in keywords; `Spacing.line` describes the texts of a `SELECT` in which the searches of the parser
find what they look for.
-/

namespace FlexQL.Parser

open Text Language

/-! ## Syntax trees -/

/-- A byte of `[A-Za-z0-9_]`. -/
def isNameByte (b : UInt8) : Bool :=
  isDigit b || (65 ≤ b && b ≤ 90) || (97 ≤ b && b ≤ 122) || b = ch '_'

def keywords : List Text :=
  ["CREATE", "TABLE", "IF", "NOT", "EXISTS", "PRIMARY", "KEY", "INSERT", "INTO", "VALUES", "DELETE",
    "FROM", "SELECT", "INNER", "JOIN", "ON", "WHERE", "AND", "ORDER", "BY", "ASC", "DESC"].map str

/-- A name in any letter case that is no keyword. -/
structure Ident where
  text : Text
  ne_nil : text ≠ []
  nameBytes : ∀ b ∈ text, isNameByte b = true
  notKeyword : upper text ∉ keywords

/-- A column, possibly with its table: `T.c`. -/
structure Column where
  qualifier : Option Ident
  name : Ident

def Column.text (c : Column) : Text :=
  match c.qualifier with
  | none => c.name.text
  | some q => q.text ++ ch '.' :: c.name.text

/-- A value in a condition. -/
structure Operand where
  text : Text
  ne_nil : text ≠ []
  bytes : ∀ b ∈ text, isSpace b = false ∧ b ≠ ch ';'

inductive Op
  | eq
  | gt
  | ge

def Op.text : Op → Text
  | .eq => str "="
  | .gt => str ">"
  | .ge => str ">="

structure Condition where
  column : Column
  op : Op
  operand : Operand

inductive Item
  | star
  | column (c : Column)

def Item.text : Item → Text
  | .star => str "*"
  | .column c => c.text

/-- `INNER JOIN table ON left = right`. -/
structure JoinTree where
  table : Ident
  left : Column
  right : Column

inductive Direction
  | asc
  | desc
  deriving DecidableEq

def Direction.word : Direction → String
  | .asc => "ASC"
  | .desc => "DESC"

structure OrderTree where
  column : Column
  direction : Option Direction

structure SelectTree where
  items : List Item
  items_ne_nil : items ≠ []
  table : Ident
  join : Option JoinTree
  /-- Without a condition there is no `WHERE`. -/
  conditions : List Condition
  order : Option OrderTree

/-- `type` or `type(digits)`. -/
structure TypeTree where
  name : Ident
  argument : Option Text
  digits : ∀ ds ∈ argument, ds ≠ [] ∧ ∀ b ∈ ds, isDigit b = true

structure ColumnTree where
  name : Ident
  type : TypeTree
  primaryKey : Bool

structure CreateTree where
  ifNotExists : Bool
  table : Ident
  columns : List ColumnTree
  columns_ne_nil : columns ≠ []

inductive Tree
  | create (t : CreateTree)
  | delete (table : Ident)
  | select (t : SelectTree)

/-! ## Statements

Names are written in capitals. Qualifiers, type arguments and `PRIMARY KEY` have no place in a
statement. -/

/-- The name in capitals. -/
def Ident.caps (i : Ident) : Text := upper i.text

def Item.caps : Item → Text
  | .star => str "*"
  | .column c => c.name.caps

def CreateTree.statement (t : CreateTree) : CreateStmt where
  tableName := t.table.caps
  columns := t.columns.map fun c => ⟨c.name.caps, c.type.name.caps⟩

def Condition.statement (c : Condition) : WhereClause :=
  ⟨c.column.name.caps, c.op.text, c.operand.text⟩

def JoinTree.statement (j : JoinTree) : Join := ⟨j.table.caps, j.left.name.caps, j.right.name.caps⟩

def OrderTree.statement (o : OrderTree) : OrderBy := ⟨o.column.name.caps, o.direction ≠ some .desc⟩

def SelectTree.statement (t : SelectTree) : SelectStmt where
  columns := t.items.map Item.caps
  tableName := t.table.caps
  filters := t.conditions.map Condition.statement
  join := (t.join.map JoinTree.statement).getD {}
  orderBy := (t.order.map OrderTree.statement).getD {}
  hasJoin := t.join.isSome
  hasOrder := t.order.isSome

def Tree.statement : Tree → Statement
  | .create t => { type := .create, createStmt := t.statement }
  | .delete table => { type := .delete, deleteStmt := ⟨table.caps⟩ }
  | .select t => { type := .select, selectStmt := t.statement }

/-! ## Texts -/

/-- White space, possibly none. -/
def gap : Language UInt8 := within fun b => isBlank b = true

/-- White space. -/
def space : Language UInt8 := gap - 1

/-- A keyword in any letter case. -/
def keyword (k : String) : Language UInt8 := {w | upper w = str k}

/-- One text. -/
def exactly (t : Text) : Language UInt8 := {t}

def comma : Language UInt8 := exactly (str ",")

def argumentTexts : Option Text → Language UInt8
  | none => 1
  | some ds => gap * exactly (str "(") * gap * exactly ds * gap * exactly (str ")")

def keyTexts : Bool → Language UInt8
  | false => 1
  | true => space * keyword "PRIMARY" * space * keyword "KEY"

def ColumnTree.texts (c : ColumnTree) : Language UInt8 :=
  gap * exactly c.name.text * space * exactly c.type.name.text * argumentTexts c.type.argument *
    keyTexts c.primaryKey * gap

def ifNotExistsTexts : Bool → Language UInt8
  | false => 1
  | true => keyword "IF" * space * keyword "NOT" * space * keyword "EXISTS" * space

def CreateTree.texts (t : CreateTree) : Language UInt8 :=
  gap * keyword "CREATE" * space * keyword "TABLE" * space * ifNotExistsTexts t.ifNotExists *
    exactly t.table.text * gap * exactly (str "(") * sepBy comma (t.columns.map ColumnTree.texts) *
    exactly (str ")")

def deleteTexts (table : Ident) : Language UInt8 :=
  gap * keyword "DELETE" * space * keyword "FROM" * space * exactly table.text

/-- The white space of a `SELECT` behind its first word. -/
structure Spacing where
  gap : Language UInt8
  /-- The keywords of a clause, with the white space around them. -/
  phrase : List String → Language UInt8
  /-- The white space before the direction of an order. -/
  last : Direction → Language UInt8

/-- Any white space, and keywords in any letter case. -/
def Spacing.free : Spacing where
  gap := Parser.gap
  phrase ks := space * sepBy space (ks.map keyword) * space
  last _ := space

/-- White space without a line break. -/
def lineGap : Language UInt8 := within fun b => isBlank b = true ∧ b ≠ ch '\n'

/-- The clause keywords in capitals with a blank on both sides and one blank inside, all on one line.
Only a final `ASC`, which is the default, may stand on a further line. -/
def Spacing.line : Spacing where
  gap := lineGap
  phrase ks := lineGap * exactly (blanked (ks.map str)) * lineGap
  last
    | .asc => space
    | .desc => lineGap - 1

section Select

variable (sp : Spacing)

def Item.texts (i : Item) : Language UInt8 := sp.gap * exactly i.text * sp.gap

def joinTexts : Option JoinTree → Language UInt8
  | none => 1
  | some j =>
    sp.phrase ["INNER", "JOIN"] * exactly j.table.text * sp.phrase ["ON"] * exactly j.left.text *
      sp.gap * exactly (str "=") * sp.gap * exactly j.right.text

def Condition.texts (c : Condition) : Language UInt8 :=
  exactly c.column.text * (sp.gap - 1) * exactly c.op.text * (sp.gap - 1) * exactly c.operand.text

def andTexts : Language UInt8 := (sp.gap - 1) * keyword "AND" * (sp.gap - 1)

def conditionsTexts : List Condition → Language UInt8
  | [] => 1
  | c :: cs =>
    sp.phrase ["WHERE"] * sepBy (andTexts sp) ((c :: cs).map (Condition.texts sp))

def directionTexts : Option Direction → Language UInt8
  | none => 1
  | some d => sp.last d * keyword d.word

def orderTexts : Option OrderTree → Language UInt8
  | none => 1
  | some o => sp.phrase ["ORDER", "BY"] * exactly o.column.text * directionTexts sp o.direction

def SelectTree.texts (t : SelectTree) : Language UInt8 :=
  Parser.gap * keyword "SELECT" * (sp.gap - 1) * sepBy comma (t.items.map (Item.texts sp)) *
    sp.phrase ["FROM"] * exactly t.table.text * joinTexts sp t.join *
    conditionsTexts sp t.conditions * orderTexts sp t.order

def Tree.texts : Tree → Language UInt8
  | .create t => t.texts
  | .delete table => deleteTexts table
  | .select t => t.texts sp

end Select

end FlexQL.Parser
