import FlexQL.Executor.InsertAtomic
import FlexQL.Executor.PointQuery
import FlexQL.Executor.ResultRows
import FlexQL.Parser.Grammar
import Mathlib.Data.Rat.Floor
import Mathlib.Tactic.Linarith

/-!
# Decimals

A `DECIMAL` is meant as a number with six decimal places. `INSERT` and `WHERE` both read it with
`std::stoll`, which stops at the decimal point, so what is stored and compared is the integer part.
-/

namespace FlexQL.Executor

open Text Table Fallible Runs FlexQL.Parser

/-- An optional sign, digits, and at most six digits behind a point. -/
structure DecimalText where
  /-- `some true` is a minus sign. -/
  sign : Option Bool
  whole : Text
  fraction : Option Text
  whole_ne_nil : whole ≠ []
  whole_digits : ∀ b ∈ whole, isDigit b = true
  fraction_digits : ∀ f ∈ fraction, ∀ b ∈ f, isDigit b = true
  fraction_length : ∀ f ∈ fraction, f.length ≤ 6

namespace DecimalText

def text (x : DecimalText) : Text :=
  x.sign.elim [] (fun minus => [ch (if minus then '-' else '+')]) ++
    (x.whole ++ x.fraction.elim [] fun f => ch '.' :: f)

def negative (x : DecimalText) : Bool := x.sign = some true

/-- The number without its sign. -/
def magnitude (x : DecimalText) : ℚ :=
  digitsValue x.whole + x.fraction.elim 0 fun f => (digitsValue f : ℚ) / 10 ^ f.length

/-- The number that the text denotes. -/
def value (x : DecimalText) : ℚ := if x.negative then -x.magnitude else x.magnitude

/-- The number up to the point. -/
def integerPart (x : DecimalText) : ℤ := if x.negative then -(digitsValue x.whole : ℤ) else digitsValue x.whole

end DecimalText

/-- A decimal whose fixed-point representation fits into an `int64_t`. -/
structure Decimal extends DecimalText where
  low : -2 ^ 63 ≤ toDecimalText.value * 10 ^ 6
  high : toDecimalText.value * 10 ^ 6 < 2 ^ 63

variable {a b : Decimal} {x y : DecimalText}

/-! ## Integer parts -/

theorem digitsValue_append_singleton (ds : Text) (c : UInt8) :
    digitsValue (ds ++ [c]) = 10 * digitsValue ds + (c.toNat - 48) := by
  simp [digitsValue]

theorem digitsValue_lt {ds : Text} (h : ∀ b ∈ ds, isDigit b = true) : digitsValue ds < 10 ^ ds.length := by
  induction ds using List.reverseRecOn with
  | nil => exact Nat.one_pos
  | append_singleton ds c ih =>
    have hds := ih fun b hb => h b (List.mem_append_left _ hb)
    have hc := h c (by simp)
    simp only [isDigit, Bool.and_eq_true, decide_eq_true_eq, UInt8.le_iff_toNat_le] at hc
    have hdigit : c.toNat ≤ 57 := hc.2
    rw [digitsValue_append_singleton, List.length_append, List.length_singleton, pow_succ]
    omega

theorem DecimalText.magnitude_bounds (x : DecimalText) :
    (digitsValue x.whole : ℚ) ≤ x.magnitude ∧ x.magnitude < digitsValue x.whole + 1 := by
  unfold magnitude
  cases hf : x.fraction with
  | none => simp
  | some f =>
    have hlt : (digitsValue f : ℚ) < 10 ^ f.length := by
      exact_mod_cast digitsValue_lt (x.fraction_digits f hf)
    have hpos : (0 : ℚ) < 10 ^ f.length := by positivity
    have hnonneg : 0 ≤ (digitsValue f : ℚ) / 10 ^ f.length := by positivity
    have hone : (digitsValue f : ℚ) / 10 ^ f.length < 1 := (div_lt_one hpos).mpr hlt
    simp only [Option.elim_some]
    constructor <;> linarith

/-- Between the integer part and the next number away from zero. -/
theorem DecimalText.value_bounds (x : DecimalText) :
    (0 ≤ x.integerPart ∧ (x.integerPart : ℚ) ≤ x.value ∧ x.value < x.integerPart + 1) ∨
      (x.integerPart ≤ 0 ∧ x.value ≤ x.integerPart ∧ (x.integerPart : ℚ) - 1 < x.value) := by
  obtain ⟨hlow, hhigh⟩ := x.magnitude_bounds
  unfold value integerPart
  cases x.negative with
  | false =>
    left
    refine ⟨by simp, ?_, ?_⟩ <;> simpa
  | true =>
    right
    refine ⟨by simp, ?_, ?_⟩
    · simpa
    · simp only [if_true, Int.cast_neg, Int.cast_natCast]
      linarith

/-- Different integer parts are in the order of the numbers. -/
theorem value_lt_of_integerPart_lt (h : x.integerPart < y.integerPart) : x.value < y.value := by
  have hstep : (x.integerPart : ℚ) + 1 ≤ y.integerPart := by exact_mod_cast h
  rcases x.value_bounds with ⟨hx, hxlow, hxhigh⟩ | ⟨hx, hxhigh, hxlow⟩
  · rcases y.value_bounds with ⟨hy, hylow, -⟩ | ⟨hy, -, -⟩
    · linarith
    · omega
  · rcases y.value_bounds with ⟨hy, hylow, -⟩ | ⟨hy, -, hylow⟩
    · linarith
    · linarith

theorem integerPart_eq_of_value_eq (h : x.value = y.value) : x.integerPart = y.integerPart := by
  rcases lt_trichotomy x.integerPart y.integerPart with hlt | heq | hlt
  · exact absurd h (value_lt_of_integerPart_lt hlt).ne
  · exact heq
  · exact absurd h (value_lt_of_integerPart_lt hlt).ne'

/-- The integer part fits into an `int64_t`. -/
theorem Decimal.integerPart_bounds (x : Decimal) : -2 ^ 63 ≤ x.integerPart ∧ x.integerPart < 2 ^ 63 := by
  have hlow := x.low
  have hhigh := x.high
  rcases x.value_bounds with ⟨hpos, hle, -⟩ | ⟨hneg, hle, -⟩
  · have hlt : (x.integerPart : ℚ) < 2 ^ 63 := by linarith
    exact ⟨by omega, by exact_mod_cast hlt⟩
  · have hge : (-2 ^ 63 : ℚ) ≤ x.integerPart := by linarith
    exact ⟨by exact_mod_cast hge, by omega⟩

/-! ## Reading -/

theorem sign_digit {c : UInt8} (h : isDigit c = true) (s : Text) : sign (c :: s) = (false, c :: s) := by
  rcases sign_cases (c :: s) with ⟨digits, heq, -⟩ | ⟨digits, heq, -⟩ | hsign
  · rw [(List.cons.inj heq).1] at h
    cases h
  · rw [(List.cons.inj heq).1] at h
    cases h
  · exact hsign

/-- The digits before the point. -/
theorem DecimalText.takeWhile_isDigit (x : DecimalText) :
    (x.whole ++ x.fraction.elim [] fun f => ch '.' :: f).takeWhile isDigit = x.whole := by
  have hstop : (x.fraction.elim [] fun f => ch '.' :: f).takeWhile isDigit = [] := by
    cases x.fraction with
    | none => rfl
    | some f => rfl
  rw [List.takeWhile_append_of_pos x.whole_digits, hstop, List.append_nil]

/-- The white space before a number, of which there is none, and its sign. -/
theorem DecimalText.sign_text (x : DecimalText) : Text.sign (x.text.dropWhile isSpace) =
    (x.negative, x.whole ++ x.fraction.elim [] fun f => ch '.' :: f) := by
  unfold text negative
  cases x.sign with
  | none =>
    obtain ⟨c, whole, hwhole⟩ := List.exists_cons_of_ne_nil x.whole_ne_nil
    have hdigit : isDigit c = true := x.whole_digits c (by rw [hwhole]; exact List.mem_cons_self)
    rw [Option.elim_none, List.nil_append, hwhole, List.cons_append,
      List.dropWhile_cons_of_neg (by simp [isSpace_of_isDigit hdigit])]
    exact sign_digit hdigit _
  | some minus => cases minus <;> rfl

/-- `std::stoll` reads the integer part. -/
theorem Decimal.stoll_text (x : Decimal) : stoll x.text = .ok (BitVec.ofInt 64 x.integerPart) := by
  obtain ⟨hlow, hhigh⟩ := x.integerPart_bounds
  have hn : (if x.negative = true then -(digitsValue x.whole : ℤ) else digitsValue x.whole) = x.integerPart := rfl
  simp only [stoll, x.sign_text, x.takeWhile_isDigit, if_neg x.whole_ne_nil, hn]
  exact if_neg (by omega)

theorem Decimal.toInt_integerPart (x : Decimal) : (BitVec.ofInt 64 x.integerPart).toInt = x.integerPart :=
  BitVec.toInt_ofInt_eq_self (by decide) x.integerPart_bounds.1 x.integerPart_bounds.2

/-! ## Rows with a decimal -/

/-- The types of columns that `exec_create` makes. -/
def Created (schema : Schema) : Prop := ∀ d ∈ schema, d.type = .decimal ∨ d.type = .float ∨ d.type = .varchar

/-- A row with a decimal in column `c` was inserted, as row `k` of a statement, into a table with
complete rows, and it is read. -/
structure Inserted (p : Platform) (e e' : Executor) (s : InsertStmt) (t t' : Table) (rows : List Row)
    (k c : ℕ) (d : ColumnDef) (a : DecimalText) (read : Row) : Prop where
  table : e.tables (upper s.tableName) = some t
  created : Created t.schema
  holds : ∃ es, HoldsRows t e.disk rows es
  full : ∀ row ∈ rows, RowFull t.schema row
  arity : ∀ tuple ∈ tuples s.rawValues, (getLines (ch ',') tuple).length = t.schema.length
  column : columnIndex t.schema d.name = some c ∧ t.schema[c]? = some d ∧ d.type = .decimal
  literal : ∃ tuple val, (tuples s.rawValues)[k]? = some tuple ∧ (getLines (ch ',') tuple)[c]? = some val ∧
    trim isSpace val = a.text
  run : execInsert p e s = .ok (e', ⟨.returned 0 none, []⟩)
  table' : e'.tables (upper s.tableName) = some t'
  read : materializeRow p t' e'.disk (rows.length + k) = .ok read

def Compares : Op → ℚ → ℚ → Prop
  | .eq, a, b => a = b
  | .gt, a, b => b < a
  | .ge, a, b => b ≤ a

/-- The filter for each operator keeps the row when the numbers compare, and only then. -/
def FollowsNumbers (t : Table) (read : Row) (name : Text) (a b : DecimalText) : Prop :=
  ∀ op, ∃ keep, matchesAll t none read [⟨name, Op.text op, b.text⟩] = .ok (.ok keep) ∧
    (keep = true ↔ Compares op a.value b.value)

variable {p : Platform} {e e' : Executor} {s : InsertStmt} {t t' : Table} {rows : List Row} {k c : ℕ}
  {d : ColumnDef} {read : Row} {schema : Schema}

theorem Created.parseValue_type (h : Created schema) (hd : d ∈ schema) {val : Text} {v : Value}
    (hv : parseValue p d.type val = .ok v) : v.type = d.type := by
  rcases h d hd with htype | htype | htype
  · exact Executor.parseValue_type (Or.inl htype) hv
  · rw [htype] at hv ⊢
    obtain ⟨x, -, hv⟩ := bind_eq_ok hv
    cases hv
    rfl
  · exact Executor.parseValue_type (Or.inr htype) hv

/-- A tuple with a value for each column makes a complete row. -/
theorem rowFull_of_parseTuple (h : Created schema) {tuple : Text} {row : Row}
    (hlen : (getLines (ch ',') tuple).length = schema.length)
    (hrow : parseTuple p schema tuple = .ok (.ok row)) :
    RowFull schema row ∧ List.Forall₂ (fun q v => parseValue p (ColumnDef.type q.1) q.2 = .ok v)
      (schema.zip (getLines (ch ',') tuple)) row.values := by
  obtain ⟨parsed, hparsed, hrow⟩ := bind_eq_ok hrow
  cases parsed with
  | error exn => cases hrow
  | ok vs =>
    cases hrow
    obtain ⟨-, hvalues⟩ := zip_of_parseValues hparsed
    refine ⟨?_, hvalues⟩
    have hmem : ∀ q ∈ schema.zip (getLines (ch ',') tuple), q.1 ∈ schema := fun q hq => (List.of_mem_zip hq).1
    have htypes : List.Forall₂ (fun (v : Value) (q : ColumnDef × Text) => v.type = q.1.type) vs
        (schema.zip (getLines (ch ',') tuple)) :=
      (((List.forall₂_and_left _ _).mpr ⟨hmem, hvalues⟩).imp fun q v hq => h.parseValue_type hq.1 hq.2).flip
    have hfst : (schema.zip (getLines (ch ',') tuple)).map Prod.fst = schema := List.map_fst_zip hlen.ge
    calc vs.map Value.type
      _ = (schema.zip (getLines (ch ',') tuple)).map fun q => q.1.type := by
        rwa [← List.forall₂_eq_eq_eq, List.forall₂_map_left_iff, List.forall₂_map_right_iff]
      _ = schema.map ColumnDef.type := by
        conv_rhs => rw [← hfst, List.map_map]
        rfl

/-- The stored number is the integer part. -/
theorem Inserted.exists_value {a : Decimal} (h : Inserted p e e' s t t' rows k c d a.toDecimalText read) :
    columnIndex t'.schema d.name = some c ∧
      read.values[c]? = some ⟨.decimal, BitVec.ofInt 64 a.integerPart, []⟩ := by
  obtain ⟨es, hholds⟩ := h.holds
  obtain ⟨hcolumn, hd, htype⟩ := h.column
  obtain ⟨tuple, val, htuple, hval, htext⟩ := h.literal
  have hget : e.getTable s.tableName = .ok t := by rw [getTable, h.table]
  have hrun := h.run
  simp only [execInsert, hget] at hrun
  obtain ⟨⟨t₁, disk₁, result⟩, hinsert, hrun⟩ := bind_eq_ok hrun
  cases hrun
  obtain ⟨new, hnew, hrows⟩ := insertTuples_returned hinsert
  obtain rfl : t₁ = t' := Option.some.inj ((setTable_same _ _ _ _).symm.trans h.table')
  have hcomplete : ∀ row ∈ new, RowFull t.schema row := by
    intro row hrow
    obtain ⟨tuple, htuple, hparse⟩ := exists_left_of_forall₂ hnew hrow
    exact (rowFull_of_parseTuple h.created (h.arity tuple htuple) hparse).1
  obtain ⟨hholds', hframe⟩ := run_holdsRows_of hholds
    (fun row hrow => (hcomplete row hrow).rowFits hholds.schema_ne) hrows
  obtain ⟨row, hrow, hparse⟩ := exists_getElem?_of_forall₂ hnew htuple
  have hfull := rowFull_of_parseTuple h.created (h.arity tuple (List.mem_of_getElem? htuple)) hparse
  have hzip : (t.schema.zip (getLines (ch ',') tuple))[c]? = some (d, val) :=
    List.getElem?_zip_eq_some.mpr ⟨hd, hval⟩
  obtain ⟨v, hv, hparsed⟩ := exists_getElem?_of_forall₂ hfull.2 hzip
  -- the value of the row
  obtain rfl : v = ⟨.decimal, BitVec.ofInt 64 a.integerPart, []⟩ := by
    simp only [htype, parseValue, htext, a.stoll_text] at hparsed
    exact (Except.ok.inj hparsed).symm
  refine ⟨by rw [hframe.schema_eq]; exact hcolumn, ?_⟩
  obtain ⟨values, hvalues, hread⟩ := bind_eq_ok h.read
  cases hread
  obtain ⟨w, hw, hstored⟩ := materializeFrom_getElem? hvalues (hframe.schema_eq ▸ hd)
  have hitem : (columnItems (rows ++ new) c)[rows.length + k]? =
      some (Value.bytes ⟨.decimal, BitVec.ofInt 64 a.integerPart, []⟩) := by
    have hall : ∀ r ∈ rows ++ new, c < r.values.length := by
      intro r hr
      have hlt := (List.getElem?_eq_some_iff.mp hd).1
      rcases List.mem_append.mp hr with hr | hr
      · exact (h.full r hr).length_eq ▸ hlt
      · exact (hcomplete r hr).length_eq ▸ hlt
    rw [columnItems_getElem? hall, List.getElem?_append_right (Nat.le_add_right _ _), Nat.add_sub_cancel_left,
      hrow, Option.bind_some, hv, Option.map_some]
  have hread : materializeValue p t₁ disk₁ (rows.length + k) d.type c =
      .ok ⟨.decimal, BitVec.ofInt 64 a.integerPart, []⟩ :=
    materializeValue_eq hholds'.columns (hframe.schema_eq ▸ hd) (by rw [htype]; rfl) htype.symm hitem
  rw [Nat.zero_add] at hstored
  obtain rfl := Except.ok.inj (hstored.symm.trans hread)
  exact hw

/-! ## The main result -/

/-- A clause compares integer parts. -/
theorem passes_decimal (name : Text) (op : Op) :
    ∃ keep, passes ⟨name, op.text, b.text⟩ ⟨.decimal, BitVec.ofInt 64 a.integerPart, []⟩ = .ok keep ∧
      (keep = true ↔ Compares op a.integerPart b.integerPart) := by
  have ha := a.toInt_integerPart
  have hb := b.toInt_integerPart
  have hgt : str ">" ≠ str "=" := by decide
  have hge : str ">=" ≠ str "=" := by decide
  have hge' : str ">=" ≠ str ">" := by decide
  cases op with
  | eq =>
    refine ⟨decide (BitVec.ofInt 64 a.integerPart = BitVec.ofInt 64 b.integerPart), ?_, ?_⟩
    · simp only [passes, Op.text, if_true, reduceCtorEq, if_false, b.stoll_text]
      rfl
    · rw [decide_eq_true_eq, ← BitVec.toInt_inj, ha, hb, Compares, Int.cast_inj]
  | gt =>
    refine ⟨decide ((BitVec.ofInt 64 b.integerPart).toInt < (BitVec.ofInt 64 a.integerPart).toInt), ?_, ?_⟩
    · simp only [passes, Op.text, if_neg hgt, if_true, b.stoll_text]
      rfl
    · rw [decide_eq_true_eq, ha, hb, Compares, Int.cast_lt]
  | ge =>
    refine ⟨decide ((BitVec.ofInt 64 b.integerPart).toInt ≤ (BitVec.ofInt 64 a.integerPart).toInt), ?_, ?_⟩
    · simp only [passes, Op.text, if_neg hge, if_neg hge', if_true, b.stoll_text]
      rfl
    · rw [decide_eq_true_eq, ha, hb, Compares, Int.cast_le]

/-- All comparisons of the integer parts are those of the numbers. -/
theorem compares_iff (a b : DecimalText) :
    (∀ op, Compares op a.integerPart b.integerPart ↔ Compares op a.value b.value) ↔
      a.value = b.value ∨ a.integerPart ≠ b.integerPart := by
  constructor
  · intro h
    by_cases hparts : a.integerPart = b.integerPart
    · exact Or.inl ((h .eq).mp (congrArg Int.cast hparts))
    · exact Or.inr hparts
  · rintro (hvalues | hparts) op
    · have hparts := integerPart_eq_of_value_eq hvalues
      cases op <;> simp [Compares, hvalues, hparts]
    · rcases lt_or_gt_of_ne hparts with hlt | hlt
      · have hvalues := value_lt_of_integerPart_lt hlt
        have hcast : (a.integerPart : ℚ) < b.integerPart := by exact_mod_cast hlt
        cases op
        · simp only [Compares, hvalues.ne, hcast.ne]
        · simp only [Compares, hvalues.not_gt, hcast.not_gt]
        · simp only [Compares, hvalues.not_ge, hcast.not_ge]
      · have hvalues := value_lt_of_integerPart_lt hlt
        have hcast : (b.integerPart : ℚ) < a.integerPart := by exact_mod_cast hlt
        cases op
        · simp only [Compares, hvalues.ne', hcast.ne']
        · simp only [Compares, hvalues, hcast]
        · simp only [Compares, hvalues.le, hcast.le]

/-- A clause for the column compares integer parts. -/
theorem Inserted.matchesAll (h : Inserted p e e' s t t' rows k c d a.toDecimalText read) (b : Decimal) (op : Op) :
    ∃ keep, matchesAll t' none read [⟨d.name, op.text, b.text⟩] = .ok (.ok keep) ∧
      (keep = true ↔ Compares op a.integerPart b.integerPart) := by
  obtain ⟨hcolumn, hvalue⟩ := h.exists_value
  have hindex : resultIndex t' none d.name = some c := by simp only [resultIndex, hcolumn]
  obtain ⟨keep, hkeep, hiff⟩ := passes_decimal (a := a) (b := b) d.name op
  have hmatches := matchesAll_singleton (t := t') (u := none) (w := ⟨d.name, op.text, b.text⟩) hindex hvalue
  rw [hkeep] at hmatches
  exact ⟨keep, hmatches, hiff⟩

/-- The filter follows the numbers exactly when they are the same or their integer parts are not. -/
theorem followsNumbers_iff (p : Platform) (e e' : Executor) (s : InsertStmt) (t t' : Table) (rows : List Row)
    (k c : ℕ) (d : ColumnDef) (a b : Decimal) (read : Row)
    (h : Inserted p e e' s t t' rows k c d a.toDecimalText read) :
    FollowsNumbers t' read d.name a.toDecimalText b.toDecimalText ↔
      a.value = b.value ∨ a.integerPart ≠ b.integerPart := by
  rw [← compares_iff]
  refine forall_congr' fun op => ?_
  obtain ⟨keep, hkeep, hiff⟩ := h.matchesAll b op
  constructor
  · rintro ⟨keep', hkeep', hiff'⟩
    obtain rfl : keep = keep' := Except.ok.inj (Except.ok.inj (hkeep.symm.trans hkeep'))
    exact hiff.symm.trans hiff'
  · exact fun h => ⟨keep, hkeep, hiff.trans h⟩

/-- `1.5`. -/
def oneAndAHalf : Decimal where
  sign := none
  whole := str "1"
  fraction := some (str "5")
  whole_ne_nil := by decide
  whole_digits := by decide +kernel
  fraction_digits := by rintro _ ⟨⟩; decide +kernel
  fraction_length := by rintro _ ⟨⟩; decide
  low := by decide +kernel
  high := by decide +kernel

/-- `1.2`. -/
def onePointTwo : Decimal where
  sign := none
  whole := str "1"
  fraction := some (str "2")
  whole_ne_nil := by decide
  whole_digits := by decide +kernel
  fraction_digits := by rintro _ ⟨⟩; decide +kernel
  fraction_length := by rintro _ ⟨⟩; decide
  low := by decide +kernel
  high := by decide +kernel

/-- `2`. -/
def two : Decimal where
  sign := none
  whole := str "2"
  fraction := none
  whole_ne_nil := by decide
  whole_digits := by decide +kernel
  fraction_digits := by rintro _ ⟨⟩
  fraction_length := by rintro _ ⟨⟩
  low := by decide +kernel
  high := by decide +kernel

/-- The executor behind `CREATE TABLE T (A DECIMAL)` and behind the insertion. -/
theorem exists_inserted :
    ∃ e e' t t' read, exec .reference (init (str "data") .blank) (parse (str "CREATE TABLE T (A DECIMAL)")) =
        .ok (e, ⟨.returned 0 none, []⟩) ∧
      Inserted .reference e e' (parse (str "INSERT INTO T VALUES (1.5)")).insertStmt t t' [] 0 0 ⟨str "A", .decimal⟩
        oneAndAHalf.toDecimalText read ∧
      execSelect .reference e' (parse (str "SELECT A FROM T WHERE A > 1.2")).selectStmt =
        .ok ⟨.returned 0 none, []⟩ := by
  obtain ⟨t, hinit, hholds, hname, hschema, -⟩ :=
    init_holdsRows (str "data") (str "T") .blank (show [⟨str "A", .decimal⟩] ≠ [] by simp) (by decide)
  have hend : (do
      let t ← Table.init (str "data") (str "T") [⟨str "A", .decimal⟩] .blank
      let inserted ← execInsert .reference ((init (str "data") .blank).setTable (str "T") t .blank)
        (parse (str "INSERT INTO T VALUES (1.5)")).insertStmt
      let selected ← execSelect .reference inserted.1 (parse (str "SELECT A FROM T WHERE A > 1.2")).selectStmt
      let read ← (inserted.1.tables (str "T")).elim (.error .nullPointer) fun t =>
        materializeRow .reference t inserted.1.disk 0
      return (inserted.2, selected, read)) =
      (.ok (⟨.returned 0 none, []⟩, ⟨.returned 0 none, []⟩, ⟨[⟨.decimal, 1, []⟩]⟩) :
        Except Fault (Outcome × Outcome × Row)) := by decide +kernel
  obtain ⟨t₁, hinit₁, hend⟩ := bind_eq_ok hend
  obtain rfl : t = t₁ := Except.ok.inj (hinit.symm.trans hinit₁)
  obtain ⟨⟨e', o⟩, hinsert, hend⟩ := bind_eq_ok hend
  obtain ⟨selected, hselect, hend⟩ := bind_eq_ok hend
  obtain ⟨read, hread, hend⟩ := bind_eq_ok hend
  simp only [Pure.pure, Except.pure, Except.ok.injEq, Prod.mk.injEq] at hend
  obtain ⟨rfl, rfl, rfl⟩ := hend
  cases ht' : e'.tables (str "T") with
  | none =>
    rw [ht'] at hread
    cases hread
  | some t' =>
    rw [ht'] at hread
    refine ⟨(init (str "data") .blank).setTable (str "T") t .blank, e', t, t', ⟨[⟨.decimal, 1, []⟩]⟩, ?_, ?_, hselect⟩
    · have hstmt : parse (str "CREATE TABLE T (A DECIMAL)") =
          { type := .create, createStmt := ⟨str "T", [⟨str "A", str "DECIMAL"⟩]⟩ } := by decide
      have hdefs : columnDefs [⟨str "A", str "DECIMAL"⟩] = .ok [⟨str "A", .decimal⟩] := by decide
      have hnew : (init (str "data") .blank).tables (str "T") = none := rfl
      have hempty : (str "T" = []) = False := by simp; decide
      have hinit' : Table.init (init (str "data") .blank).dataDir (str "T") [⟨str "A", .decimal⟩]
          (init (str "data") .blank).disk = .ok t := hinit
      rw [hstmt]
      simp only [exec, execCreate, hnew, hdefs, hempty, hinit', if_false, Option.isSome_none,
        Bool.false_eq_true, Bind.bind, Except.bind, Pure.pure, Except.pure]
      rfl
    · exact
        { table := setTable_same _ _ _ _
          created := by rw [hschema]; simp [Created]
          holds := ⟨[], hholds⟩
          full := by simp
          arity := by rw [hschema]; decide
          column := by rw [hschema]; exact ⟨by decide, rfl, rfl⟩
          literal := ⟨str "1.5", str "1.5", by decide, by decide, by decide⟩
          run := hinsert
          table' := ht'
          read := hread }


theorem followsNumbers_two :
    ∃ e e' t t' read, exec .reference (init (str "data") .blank) (parse (str "CREATE TABLE T (A DECIMAL)")) =
        .ok (e, ⟨.returned 0 none, []⟩) ∧
      Inserted .reference e e' (parse (str "INSERT INTO T VALUES (1.5)")).insertStmt t t' [] 0 0 ⟨str "A", .decimal⟩
        oneAndAHalf.toDecimalText read ∧
      FollowsNumbers t' read (str "A") oneAndAHalf.toDecimalText two.toDecimalText := by
  obtain ⟨e, e', t, t', read, hcreate, hinserted, -⟩ := exists_inserted
  refine ⟨e, e', t, t', read, hcreate, hinserted, ?_⟩
  exact (followsNumbers_iff .reference e e' _ t t' [] 0 0 ⟨str "A", .decimal⟩ oneAndAHalf two read
    hinserted).mpr (Or.inr (by decide))

/-- `1.5` is greater than `1.2`, and the query for it emits nothing. -/
theorem not_followsNumbers_fraction :
    ∃ e e' t t' read, exec .reference (init (str "data") .blank) (parse (str "CREATE TABLE T (A DECIMAL)")) =
        .ok (e, ⟨.returned 0 none, []⟩) ∧
      Inserted .reference e e' (parse (str "INSERT INTO T VALUES (1.5)")).insertStmt t t' [] 0 0 ⟨str "A", .decimal⟩
        oneAndAHalf.toDecimalText read ∧
      execSelect .reference e' (parse (str "SELECT A FROM T WHERE A > 1.2")).selectStmt =
        .ok ⟨.returned 0 none, []⟩ ∧
      onePointTwo.value < oneAndAHalf.value ∧
      ¬ FollowsNumbers t' read (str "A") oneAndAHalf.toDecimalText onePointTwo.toDecimalText := by
  obtain ⟨e, e', t, t', read, hcreate, hinserted, hselect⟩ := exists_inserted
  have hlt : onePointTwo.value < oneAndAHalf.value := by decide +kernel
  refine ⟨e, e', t, t', read, hcreate, hinserted, hselect, hlt, fun h => ?_⟩
  obtain ⟨keep, hkeep, hiff⟩ := h .gt
  obtain ⟨keep', hkeep', hiff'⟩ := hinserted.matchesAll onePointTwo .gt
  obtain rfl : keep = keep' := Except.ok.inj (Except.ok.inj (hkeep.symm.trans hkeep'))
  have hparts : Compares .gt (oneAndAHalf.integerPart : ℚ) onePointTwo.integerPart := hiff'.mp (hiff.mpr hlt)
  have hsame : onePointTwo.integerPart = oneAndAHalf.integerPart := by decide
  rw [Compares, hsame] at hparts
  exact lt_irrefl _ hparts

end FlexQL.Executor
