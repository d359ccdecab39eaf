import FlexQL.Lib.ByteMemory
import FlexQL.Lib.Text

/-!
# Rows

The values of a row, the columns of a schema, and the bytes that a column keeps of a value.
-/

namespace FlexQL

open ByteMemory Text

inductive ColumnType
  | int
  | float
  | decimal
  | char
  | varchar
  | datetime
  deriving DecidableEq, Repr

/-- The parts of a `ColumnDef` that are ever read. -/
structure ColumnDef where
  name : Text
  type : ColumnType
  deriving DecidableEq, Repr

/-- The columns of a `Schema`. -/
abbrev Schema := List ColumnDef

structure Value where
  type : ColumnType
  /-- The union: `i64` is all of it, `i32` and `f32` are its low half. -/
  bits : BitVec 64
  str : Text
  deriving DecidableEq, Repr

namespace Value

/-- `strncpy(buf, str.c_str(), 127)` into a zeroed buffer of 128 bytes. -/
def strBytes (s : Text) : List UInt8 :=
  let s := (cStr s).take 127
  s ++ List.replicate (128 - s.length) 0

/-- The bytes that `insert_row` hands to the column: `buf`, cut to `sz`. -/
def bytes (v : Value) : List UInt8 :=
  match v.type with
  | .varchar => strBytes v.str
  | .int | .float => encode 4 v.bits.toNat
  | _ => encode 8 v.bits.toNat

end Value

structure Row where
  values : List Value
  deriving DecidableEq, Repr

/-- `sz` of `insert_row`: the size of the items of a column. -/
def ColumnType.itemSize : ColumnType → ℕ
  | .varchar => 128
  | .int | .float => 4
  | _ => 8

/-- `fsz` of `materialize_row`: the size with which a column is read. -/
def ColumnType.readSize : ColumnType → ℕ
  | .varchar => 128
  | _ => 8

theorem Value.bytes_length (v : Value) : v.bytes.length = v.type.itemSize := by
  unfold Value.bytes ColumnType.itemSize
  cases v.type with
  | varchar =>
    have : ((cStr v.str).take 127).length ≤ 127 := List.length_take_le _ _
    simp only [Value.strBytes, List.length_append, List.length_replicate]
    omega
  | _ => simp

theorem ColumnType.itemSize_sound (type : ColumnType) : 0 < type.itemSize ∧ type.itemSize ≤ 4088 := by
  cases type <;> decide

end FlexQL
