import FlexQL.Executor.Reachable
import FlexQL.Storage.InsertEvents

/-!
# Is an INSERT all or nothing?

The tuples of an `INSERT` are parsed and inserted one after the other. A statement is carried out as
a whole when every tuple is closed and complete, every number in it can be converted, and the files
have room for the rows. A statement for an unknown table changes nothing. In all other cases an
exception escapes, the statement runs into undefined behaviour, or it reports success although a
tuple is missing.
-/

namespace FlexQL.Executor

open Text Table Runs Fallible

/-- Behind the closed tuples there is one that is not closed. -/
def endsOpen : ℕ → Text → Bool
  | 0, _ => false
  | fuel + 1, raw =>
    match after (ch '(') raw with
    | none => false
    | some raw => match cut (ch ')') raw with
      | none => true
      | some (_, raw) => endsOpen fuel raw

/-- Every tuple of the text has its closing parenthesis. -/
def AllClosed (raw : Text) : Prop := endsOpen raw.length raw = false

/-- The row of a tuple, with a value for each column. -/
def IsRowOf (p : Platform) (schema : Schema) (tuple : Text) (row : Row) : Prop :=
  parseTuple p schema tuple = .ok (.ok row) ∧ row.values.length = schema.length

/-- Every tuple of the text is in the table, each by a call of `insert_row` for its row. -/
structure AllInserted (p : Platform) (e : Executor) (s : InsertStmt) (t : Table) (e' : Executor) :
    Prop where
  closed : AllClosed s.rawValues
  inserted : ∃ rows t' disk', List.Forall₂ (IsRowOf p t.schema) (tuples s.rawValues) rows ∧
    run insertStep (t, e.disk) rows = .ok (t', disk') ∧
    e' = e.setTable (upper s.tableName) t' disk'

/-- The statement returns; either all tuples are inserted and the code is 0, or the code is another
one with an error text and nothing has changed. -/
def AllOrNothing (p : Platform) (e : Executor) (s : InsertStmt) : Prop :=
  ∃ e' o, execInsert p e s = .ok (e', o) ∧
    ((o.result = .returned 0 none ∧
        ∃ t, e.getTable s.tableName = .ok t ∧ AllInserted p e s t e') ∨
      (e' = e ∧ ∃ code err, o.result = .returned code (some err) ∧ code ≠ 0))

/-- A tuple has as many values as there are columns, and each can be converted. -/
def Parses (p : Platform) (schema : Schema) (tuple : Text) : Prop :=
  List.Forall₂ (fun d val => ∃ v, parseValue p (ColumnDef.type d) val = .ok v) schema
    (getLines (ch ',') tuple)

/-- The rows of the tuples that can be parsed. -/
def rowsOf (p : Platform) (schema : Schema) (raw : Text) : List Row :=
  (tuples raw).filterMap fun tuple => match parseTuple p schema tuple with
    | .ok (.ok row) => some row
    | _ => none

/-- What it takes for a statement to be carried out as a whole. -/
structure Acceptable (p : Platform) (e : Executor) (s : InsertStmt) (t : Table) : Prop where
  closed : AllClosed s.rawValues
  parses : ∀ tuple ∈ tuples s.rawValues, Parses p t.schema tuple
  /-- `insert_row` does not run over the end of a file. -/
  fits : run insertStep (t, e.disk) (rowsOf p t.schema s.rawValues) ≠ .error .unmapped

variable {p : Platform} {e : Executor} {t : Table} {disk : Disk} {schema : Schema}

/-! ## Tuples and their rows -/

theorem exists_left_of_forall₂ {α β : Type*} {R : α → β → Prop} {as : List α} {bs : List β}
    (h : List.Forall₂ R as bs) {b : β} (hb : b ∈ bs) : ∃ a ∈ as, R a b := by
  induction h with
  | nil => cases hb
  | cons hab _ ih =>
    rcases List.mem_cons.mp hb with rfl | hb
    · exact ⟨_, List.mem_cons_self, hab⟩
    · obtain ⟨a, ha, hr⟩ := ih hb
      exact ⟨a, List.mem_cons_of_mem _ ha, hr⟩

theorem exists_getElem?_of_forall₂ {α β : Type*} {R : α → β → Prop} {as : List α} {bs : List β}
    (h : List.Forall₂ R as bs) {i : ℕ} {a : α} (ha : as[i]? = some a) : ∃ b, bs[i]? = some b ∧ R a b := by
  induction h generalizing i with
  | nil => simp at ha
  | @cons a' b as bs hab _ ih =>
    cases i with
    | zero =>
      obtain rfl : a' = a := by simpa using ha
      exact ⟨b, rfl, hab⟩
    | succ i => simpa using ih (by simpa using ha)

theorem parseValues_of_forall₂ {vals : List Text}
    (h : List.Forall₂ (fun d val => ∃ v, parseValue p (ColumnDef.type d) val = .ok v) schema vals) :
    ∃ vs, parseValues p schema vals = .ok (.ok vs) ∧ vs.length = schema.length := by
  induction h with
  | nil => exact ⟨[], rfl, rfl⟩
  | cons hv _ ih =>
    obtain ⟨v, hv⟩ := hv
    obtain ⟨vs, hvs, hlen⟩ := ih
    refine ⟨v :: vs, ?_, by rw [List.length_cons, List.length_cons, hlen]⟩
    simp only [parseValues, hv, hvs, Bind.bind, Except.bind, Pure.pure, Except.pure]

/-- The values of a tuple, each with its column and its text. -/
theorem zip_of_parseValues {vals : List Text} {vs : List Value}
    (h : parseValues p schema vals = .ok (.ok vs)) : vals.length ≤ schema.length ∧
      List.Forall₂ (fun q v => parseValue p (ColumnDef.type q.1) q.2 = .ok v) (schema.zip vals) vs := by
  induction vals generalizing schema vs with
  | nil =>
    rw [List.zip_nil_right]
    cases schema <;> cases h <;> exact ⟨Nat.zero_le _, .nil⟩
  | cons val vals ih =>
    cases schema with
    | nil => cases h
    | cons d schema =>
      cases hv : parseValue p d.type val with
      | error exn => simp [parseValues, hv] at h
      | ok v =>
        simp only [parseValues, hv] at h
        obtain ⟨parsed, hparsed, h⟩ := bind_eq_ok h
        cases parsed with
        | error exn => cases h
        | ok ws =>
          cases h
          obtain ⟨hlen, hvalues⟩ := ih hparsed
          exact ⟨Nat.succ_le_succ hlen, .cons hv hvalues⟩

theorem forall₂_of_parseValues {vals : List Text} {vs : List Value}
    (h : parseValues p schema vals = .ok (.ok vs)) (hlen : vs.length = schema.length) :
    List.Forall₂ (fun d val => ∃ v, parseValue p (ColumnDef.type d) val = .ok v) schema vals := by
  induction schema generalizing vals vs with
  | nil =>
    cases vals with
    | nil => exact .nil
    | cons val vals => simp [parseValues] at h
  | cons d schema ih =>
    cases vals with
    | nil =>
      simp only [parseValues] at h
      cases h
      simp at hlen
    | cons val vals =>
      rw [parseValues] at h
      cases hv : parseValue p d.type val with
      | error exn => simp [hv] at h
      | ok v =>
        cases hrest : parseValues p schema vals with
        | error f => simp [hv, hrest, Bind.bind, Except.bind] at h
        | ok parsed =>
          cases parsed with
          | error exn => simp [hv, hrest, Bind.bind, Except.bind, Pure.pure, Except.pure] at h
          | ok ws =>
            simp only [hv, hrest, Bind.bind, Except.bind, Pure.pure, Except.pure] at h
            cases h
            exact .cons ⟨v, hv⟩ (ih hrest (by simpa using hlen))

theorem parses_iff {tuple : Text} : Parses p schema tuple ↔ ∃ row, IsRowOf p schema tuple row := by
  constructor
  · intro h
    obtain ⟨vs, hvs, hlen⟩ := parseValues_of_forall₂ h
    refine ⟨⟨vs⟩, ?_, hlen⟩
    simp only [parseTuple, hvs, Bind.bind, Except.bind, Pure.pure, Except.pure]
  · rintro ⟨row, hrow, hlen⟩
    cases hvs : parseValues p schema (getLines (ch ',') tuple) with
    | error f => simp [parseTuple, hvs, Bind.bind, Except.bind] at hrow
    | ok parsed =>
      cases parsed with
      | error exn =>
        simp [parseTuple, hvs, Bind.bind, Except.bind, Pure.pure, Except.pure] at hrow
      | ok vs =>
        simp only [parseTuple, hvs, Bind.bind, Except.bind, Pure.pure, Except.pure] at hrow
        cases hrow
        exact forall₂_of_parseValues hvs hlen

theorem filterMap_rows {ts : List Text} {rows : List Row}
    (h : List.Forall₂ (IsRowOf p schema) ts rows) :
    (ts.filterMap fun tuple => match parseTuple p schema tuple with
      | .ok (.ok row) => some row
      | _ => none) = rows := by
  induction h with
  | nil => rfl
  | cons hrow _ ih => simp only [List.filterMap_cons, hrow.1, ih]

theorem exists_rows {ts : List Text} (h : ∀ tuple ∈ ts, Parses p schema tuple) :
    ∃ rows, List.Forall₂ (IsRowOf p schema) ts rows := by
  induction ts with
  | nil => exact ⟨[], .nil⟩
  | cons tuple ts ih =>
    obtain ⟨row, hrow⟩ := parses_iff.mp (h tuple List.mem_cons_self)
    obtain ⟨rows, hrows⟩ := ih fun tuple' htuple => h tuple' (List.mem_cons_of_mem _ htuple)
    exact ⟨row :: rows, .cons hrow hrows⟩

theorem parses_of_rows {ts : List Text} {rows : List Row}
    (h : List.Forall₂ (IsRowOf p schema) ts rows) : ∀ tuple ∈ ts, Parses p schema tuple := by
  induction h with
  | nil => simp
  | cons hrow _ ih => exact List.forall_mem_cons.mpr ⟨parses_iff.mpr ⟨_, hrow⟩, ih⟩

theorem values_ne_nil {ts : List Text} {rows : List Row} (hne : schema ≠ [])
    (h : List.Forall₂ (IsRowOf p schema) ts rows) : ∀ row ∈ rows, row.values ≠ [] := by
  induction h with
  | nil => simp
  | cons hrow _ ih =>
    intro row hmem
    rcases List.mem_cons.mp hmem with rfl | hmem
    · intro hnil
      have hlen := hrow.2
      rw [hnil, List.length_nil] at hlen
      exact hne (List.length_eq_zero_iff.mp hlen.symm)
    · exact ih row hmem

/-! ## The loop over the tuples -/

/-- When all tuples have rows, the loop is a run of `insert_row`. -/
theorem insertTuples_eq_run (hschema : t.schema = schema) {ts : List Text} {rows : List Row}
    (hrows : List.Forall₂ (fun tuple row => parseTuple p schema tuple = .ok (.ok row)) ts rows) :
    insertTuples p ts t disk =
      (run insertStep (t, disk) rows).map fun r => (r.1, r.2, .returned 0 none) := by
  induction hrows generalizing t disk with
  | nil => rfl
  | @cons tuple row ts rows hrow _ ih =>
    rw [insertTuples, hschema, hrow]
    cases hr : t.insertRow disk row with
    | error f =>
      simp only [run, insertStep, hr, Bind.bind, Except.bind]
      rfl
    | ok r =>
      simp only [run, insertStep, hr, Bind.bind, Except.bind]
      exact ih ((insertRow_schema hr).trans hschema)

/-- A loop that reports a code has inserted the rows of all tuples. -/
theorem insertTuples_returned {ts : List Text} {t' : Table} {disk' : Disk} {code : ℕ} {err : Option Text}
    (h : insertTuples p ts t disk = .ok (t', disk', .returned code err)) :
    ∃ rows, List.Forall₂ (fun tuple row => parseTuple p t.schema tuple = .ok (.ok row)) ts rows ∧
      run insertStep (t, disk) rows = .ok (t', disk') := by
  induction ts generalizing t disk with
  | nil =>
    cases h
    exact ⟨[], .nil, rfl⟩
  | cons tuple ts ih =>
    rw [insertTuples] at h
    obtain ⟨parsed, hparse, h⟩ := bind_eq_ok h
    cases parsed with
    | error exn => cases h
    | ok row =>
      obtain ⟨r, hr, h⟩ := bind_eq_ok h
      obtain ⟨rows, hrows, hrun⟩ := ih h
      rw [insertRow_schema hr] at hrows
      exact ⟨row :: rows, .cons hparse hrows, (run_cons_of_ok rows hr).trans hrun⟩

/-- A loop that reports a code reports 0. -/
theorem insertTuples_result {ts : List Text} {t' : Table} {disk' : Disk} {result : Result}
    (h : insertTuples p ts t disk = .ok (t', disk', result)) :
    result = .returned 0 none ∨ ∃ exn, result = .thrown exn := by
  induction ts generalizing t disk with
  | nil =>
    cases h
    exact Or.inl rfl
  | cons tuple ts ih =>
    rw [insertTuples] at h
    cases hparse : parseTuple p t.schema tuple with
    | error f => simp [hparse, Bind.bind, Except.bind] at h
    | ok parsed =>
      cases parsed with
      | error exn =>
        simp only [hparse, Bind.bind, Except.bind, Pure.pure, Except.pure] at h
        cases h
        exact Or.inr ⟨exn, rfl⟩
      | ok row =>
        simp only [hparse, Bind.bind, Except.bind] at h
        cases hr : t.insertRow disk row with
        | error f => simp [hr] at h
        | ok r =>
          rw [hr] at h
          exact ih h

/-! ## Whole statements -/

theorem allOrNothing_of_missing {s : InsertStmt} {err : Text}
    (h : e.getTable s.tableName = .error err) : AllOrNothing p e s := by
  refine ⟨e, ⟨.returned 1 (some err), []⟩, ?_, Or.inr ⟨rfl, 1, err, rfl, one_ne_zero⟩⟩
  simp only [execInsert, h]

theorem Acceptable.allOrNothing {s : InsertStmt} (h : Acceptable p e s t) (hsound : t.Sound)
    (ht : e.getTable s.tableName = .ok t) : AllOrNothing p e s := by
  obtain ⟨rows, hrows⟩ := exists_rows h.parses
  have hfits := h.fits
  rw [rowsOf, filterMap_rows hrows] at hfits
  have hrun := hsound.run_insertRow e.disk (values_ne_nil hsound.schema_ne hrows)
  cases hr : run insertStep (t, e.disk) rows with
  | error f =>
    rw [hr] at hrun hfits
    cases hrun with
    | error hf => exact absurd (congrArg Except.error hf) hfits
  | ok r =>
    have hins : insertTuples p (tuples s.rawValues) t e.disk = .ok (r.1, r.2, .returned 0 none) := by
      rw [insertTuples_eq_run rfl (hrows.imp fun _ _ h => h.1), hr]
      rfl
    refine ⟨e.setTable (upper s.tableName) r.1 r.2, ⟨.returned 0 none, []⟩, ?_,
      Or.inl ⟨rfl, t, ht, h.closed, rows, r.1, r.2, hrows, hr, rfl⟩⟩
    simp only [execInsert, ht, hins, Bind.bind, Except.bind, Pure.pure, Except.pure]

theorem AllOrNothing.acceptable {s : InsertStmt} (h : AllOrNothing p e s)
    (ht : e.getTable s.tableName = .ok t) : Acceptable p e s t := by
  obtain ⟨e', o, hexec, ⟨-, t', ht', hclosed, rows, u, disk', hrows, hrun, -⟩ |
    ⟨-, code, err, hresult, hcode⟩⟩ := h
  · obtain rfl : t = t' := Except.ok.inj (ht.symm.trans ht')
    refine ⟨hclosed, ?_, ?_⟩
    · exact parses_of_rows hrows
    · rw [rowsOf, filterMap_rows hrows, hrun]
      exact fun h => by cases h
  · -- the table exists, so no code but 0 is ever returned
    cases hins : insertTuples p (tuples s.rawValues) t e.disk with
    | error f => simp [execInsert, ht, hins, Bind.bind, Except.bind] at hexec
    | ok r =>
      simp only [execInsert, ht, hins, Bind.bind, Except.bind, Pure.pure, Except.pure] at hexec
      cases hexec
      rcases insertTuples_result hins with heq | ⟨exn, heq⟩
      · simp only [heq, Result.returned.injEq] at hresult
        exact absurd hresult.1.symm hcode
      · simp [heq] at hresult

/-- In every reachable state an `INSERT` is all or nothing if and only if its table is unknown, or
all its tuples are closed, have one convertible value for each column, and find room. -/
theorem allOrNothing_iff (p : Platform) (e : Executor) (h : Reachable p e) (s : InsertStmt) :
    AllOrNothing p e s ↔ (∃ err, e.getTable s.tableName = .error err) ∨
      ∃ t, e.getTable s.tableName = .ok t ∧ Acceptable p e s t := by
  cases ht : e.getTable s.tableName with
  | error err => exact ⟨fun _ => Or.inl ⟨err, rfl⟩, fun _ => allOrNothing_of_missing ht⟩
  | ok t =>
    constructor
    · exact fun hall => Or.inr ⟨t, rfl, hall.acceptable ht⟩
    · rintro (⟨err, herr⟩ | ⟨t', ht', hacc⟩)
      · cases herr
      · cases ht'
        exact hacc.allOrNothing (h.sound.getTable ht) ht

theorem allOrNothing_iff_new_table :
    ∃ e, runNew [str "CREATE TABLE T (ID INT)"] = .ok e ∧
      (AllOrNothing .reference e ⟨str "T", str "(1), (2)"⟩ ↔
        (∃ err, e.getTable (str "T") = .error err) ∨ ∃ t, e.getTable (str "T") = .ok t ∧
          Acceptable .reference e ⟨str "T", str "(1), (2)"⟩ t) := by
  obtain ⟨e, he⟩ := exists_of_isOk (x := runNew [str "CREATE TABLE T (ID INT)"]) (by decide +kernel)
  exact ⟨e, he, allOrNothing_iff .reference e ⟨_, _, _, he⟩ _⟩

/-- The second tuple of `(1),(x)` makes an exception escape, and the first one is in the table. -/
theorem not_allOrNothing_unparsable :
    ∃ e, runNew [str "CREATE TABLE T (ID INT)"] = .ok e ∧
      ¬ AllOrNothing .reference e (Parser.parse (str "INSERT INTO T VALUES (1),(x)")).insertStmt := by
  obtain ⟨e, he⟩ := exists_of_isOk (x := runNew [str "CREATE TABLE T (ID INT)"]) (by decide +kernel)
  refine ⟨e, he, ?_⟩
  have hthrown : (do
      let e ← runNew [str "CREATE TABLE T (ID INT)"]
      let r ← execInsert .reference e
        (Parser.parse (str "INSERT INTO T VALUES (1),(x)")).insertStmt
      return r.2.result) = .ok (.thrown .invalidArgument) := by decide +kernel
  rintro ⟨e', o, hexec, hresult⟩
  simp only [he, hexec, Bind.bind, Except.bind, Pure.pure, Except.pure, Except.ok.injEq] at hthrown
  simp [hthrown] at hresult

end FlexQL.Executor
