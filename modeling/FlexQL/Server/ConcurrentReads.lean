import FlexQL.Executor.TextJoin
import FlexQL.Server.RowsUnderway

/-!
# A query beside insertions

`exec_select` reads a table while other threads are inside `insert_row`. The search in the index, the
look at the number of rows and the reading of one value are one step each, and insertions take steps of
theirs in between. A row to which the index leads is whole. A scan may meet a row whose insertion is
under way, and miss values of it behind the first one.
-/

namespace FlexQL.Server

open Text Runs Table Executor

/-- How far a query has read its table. -/
inductive Query
  | search (id : ℕ)
  | count
  /-- The numbers of the rows still to be read, the values of the first of them so far, and the rows
  behind it. -/
  | rows (indexed : Bool) (rids : List ℕ) (values : List Value) (read : List Row)
  deriving DecidableEq, Repr

namespace Query

/-- A query for one key asks the index first. -/
def start (s : SelectStmt) : Query :=
  match asksForId s with
  | none => .count
  | some valueStr => match stoll valueStr with
    | .error _ => .count
    | .ok id => .search id.toNat

/-- The next step of a query. A query that has read its rows takes none. -/
def step (p : Platform) (t : Table) (disk : Disk) : Query → Except Fault Query
  | .search id => match t.indexManager.getIndex pkName with
    | none => .error .nullPointer
    | some tree => do
      match ← tree.search id with
      | (none, _) => return .count
      | (some rid, _) => return .rows true [rid] [] []
  | .count => do
    let total ← t.totalRows 0
    return .rows false (List.range total) [] []
  | .rows indexed [] values read => .ok (.rows indexed [] values read)
  | .rows indexed (rid :: rids) values read => match t.schema[values.length]? with
    | none => .ok (.rows indexed rids [] (read ++ [⟨values⟩]))
    | some d => do
      let v ← materializeValue p t disk rid d.type values.length
      return .rows indexed (rid :: rids) (values ++ [v]) read

/-- The rows that were read, when these are all, and whether the index led to them. -/
def result : Query → Option (Bool × List Row)
  | .rows indexed [] _ read => some (indexed, read)
  | _ => none

def Ended (q : Query) : Prop := q.result.isSome = true

/-- A step of a query that nobody disturbs. -/
def stepAlone (p : Platform) (st : Table × Disk) (q : Query) (_ : Unit) : Except Fault Query :=
  q.step p st.1 st.2

end Query

/-- The insertions into a table, and a query on it. -/
structure Reading where
  inserting : Inserting
  query : Query

/-- Which thread goes next. -/
inductive Turn
  | insert (choice : Choice)
  | read
  deriving DecidableEq, Repr

namespace Reading

def step (p : Platform) (s : Reading) : Turn → Except Fault Reading
  | .insert choice => do
    let inserting ← Server.step s.inserting choice
    return { s with inserting := inserting }
  | .read => do
    let query ← s.query.step p s.inserting.table s.inserting.disk
    return { s with query := query }

/-- No insertion overtakes an earlier one. -/
def Orderly (s : Reading) : Turn → Prop
  | .insert choice => Server.Orderly s.inserting choice
  | .read => True

instance (s : Reading) : ∀ turn, Decidable (Orderly s turn)
  | .insert choice => inferInstanceAs (Decidable (Server.Orderly s.inserting choice))
  | .read => isTrue trivial

end Reading

/-! ## A query alone -/

section Alone

variable {p : Platform} {t : Table} {disk : Disk} {indexed : Bool} {rids : List ℕ} {values : List Value}
  {read : List Row}

/-- The rest of a row. -/
theorem run_columns {rid n : ℕ} {schema : Schema} {vs : List Value} (hschema : t.schema.drop n = schema)
    (hn : values.length = n) (h : materializeFrom p t disk rid schema n = .ok vs) :
    run (Query.stepAlone p (t, disk)) (.rows indexed (rid :: rids) values read)
      (List.replicate schema.length ()) = .ok (.rows indexed (rid :: rids) (values ++ vs) read) := by
  induction schema generalizing n values vs with
  | nil =>
    cases h
    rw [List.append_nil]
    rfl
  | cons d schema ih =>
    obtain ⟨v, hv, h⟩ := Fallible.bind_eq_ok h
    obtain ⟨vs', hvs, h⟩ := Fallible.bind_eq_ok h
    cases h
    have hd : t.schema[values.length]? = some d := by
      rw [hn, ← Nat.add_zero n, ← List.getElem?_drop, hschema]
      rfl
    have htail : t.schema.drop (n + 1) = schema := by rw [← List.tail_drop, hschema, List.tail_cons]
    have hstep : Query.stepAlone p (t, disk) (.rows indexed (rid :: rids) values read) () =
        .ok (.rows indexed (rid :: rids) (values ++ [v]) read) := by
      rw [← hn] at hv
      simp only [Query.stepAlone, Query.step, hd, hv, Bind.bind, Except.bind, Pure.pure, Except.pure]
    rw [List.length_cons, List.replicate_succ, run_cons_of_ok _ hstep,
      ih htail (by rw [List.length_append, hn]; rfl) hvs, List.append_assoc, List.singleton_append]

/-- From the values of a row on to the end of the row. -/
theorem run_row {rid : ℕ} {vs : List Value}
    (h : materializeFrom p t disk rid (t.schema.drop values.length) values.length = .ok vs) :
    ∃ n, run (Query.stepAlone p (t, disk)) (.rows indexed (rid :: rids) values read) (List.replicate n ()) =
      .ok (.rows indexed rids [] (read ++ [⟨values ++ vs⟩])) := by
  have hcolumns : run (Query.stepAlone p (t, disk)) (.rows indexed (rid :: rids) values read) _ = _ :=
    run_columns rfl rfl h
  have hlen : t.schema.length ≤ (values ++ vs).length := by
    have hvs := materializeFrom_length h
    rw [List.length_append, hvs, List.length_drop]
    omega
  refine ⟨(t.schema.drop values.length).length + 1, ?_⟩
  rw [List.replicate_add, run_append_of_ok _ hcolumns, List.replicate_one, run_singleton]
  simp only [Query.stepAlone, Query.step, List.getElem?_eq_none hlen]

/-- The remaining rows. -/
theorem run_rows {rows : List Row} (h : materializeRows p t disk rids = .ok rows) :
    ∃ n, run (Query.stepAlone p (t, disk)) (.rows indexed rids [] read) (List.replicate n ()) =
      .ok (.rows indexed [] [] (read ++ rows)) := by
  induction rids generalizing read rows with
  | nil =>
    cases h
    exact ⟨0, by rw [List.append_nil]; rfl⟩
  | cons rid rids ih =>
    obtain ⟨row, hrow, h⟩ := Fallible.bind_eq_ok h
    obtain ⟨rows', hrows, h⟩ := Fallible.bind_eq_ok h
    cases h
    obtain ⟨vs, hvs, hrow⟩ := Fallible.bind_eq_ok hrow
    cases hrow
    obtain ⟨n, hn⟩ : ∃ n, run (Query.stepAlone p (t, disk)) (.rows indexed (rid :: rids) [] read)
        (List.replicate n ()) = .ok (.rows indexed rids [] (read ++ [⟨vs⟩])) := run_row hvs
    obtain ⟨m, hm⟩ : ∃ m, run (Query.stepAlone p (t, disk)) (.rows indexed rids [] (read ++ [⟨vs⟩]))
        (List.replicate m ()) = .ok (.rows indexed [] [] (read ++ [⟨vs⟩] ++ rows')) := ih hrows
    refine ⟨n + m, ?_⟩
    rw [List.replicate_add, run_append_of_ok _ hn, hm, List.append_assoc]
    rfl

/-- The search leads to a row, or to a scan. -/
theorem step_search {id : ℕ} {tree : BPTree} {out : Option ℕ × BPTree}
    (htree : t.indexManager.getIndex pkName = some tree) (hsearch : tree.search id = .ok out) :
    Query.step p t disk (.search id) = .ok (out.1.elim .count fun rid => .rows true [rid] [] []) := by
  obtain ⟨_ | rid, tree'⟩ := out <;>
    simp only [Query.step, htree, hsearch, Bind.bind, Except.bind, Pure.pure, Except.pure, Option.elim]

theorem exists_run_count {total : ℕ} {rows : List Row} (htotal : t.totalRows 0 = .ok total)
    (hrows : materializeRows p t disk (List.range total) = .ok rows) :
    ∃ n, run (Query.stepAlone p (t, disk)) .count (List.replicate n ()) = .ok (.rows false [] [] rows) := by
  obtain ⟨n, hn⟩ := run_rows hrows
  refine ⟨n + 1, ?_⟩
  have hstep : Query.stepAlone p (t, disk) .count () = .ok (.rows false (List.range total) [] []) := by
    simp only [Query.stepAlone, Query.step, htotal, Bind.bind, Except.bind, Pure.pure, Except.pure]
  rw [List.replicate_succ, run_cons_of_ok _ hstep]
  exact hn

/-- How `exec_select` asks the index. -/
theorem indexLookup_cases {s : SelectStmt} {out : Option Row} (h : indexLookup p t disk s = .ok out) :
    (out = none ∧ Query.start s = .count) ∨ ∃ id tree found, Query.start s = .search id ∧
      t.indexManager.getIndex pkName = some tree ∧ tree.search id = .ok found ∧
      ((found.1 = none ∧ out = none) ∨
        ∃ rid row, found.1 = some rid ∧ materializeRow p t disk rid = .ok row ∧ out = some row) := by
  cases hask : asksForId s with
  | none =>
    simp only [indexLookup, hask] at h
    cases h
    exact Or.inl ⟨rfl, by simp only [Query.start, hask]⟩
  | some valueStr =>
    cases hid : stoll valueStr with
    | error exn =>
      simp only [indexLookup, hask, hid] at h
      cases h
      exact Or.inl ⟨rfl, by simp only [Query.start, hask, hid]⟩
    | ok id =>
      simp only [indexLookup, hask, hid] at h
      cases htree : t.indexManager.getIndex pkName with
      | none =>
        rw [htree] at h
        cases h
      | some tree =>
        rw [htree] at h
        obtain ⟨⟨_ | rid, tree'⟩, hsearch, h⟩ := Fallible.bind_eq_ok h
        · cases h
          exact Or.inr ⟨id.toNat, tree, _, by simp only [Query.start, hask, hid], rfl, hsearch, Or.inl ⟨rfl, rfl⟩⟩
        · obtain ⟨row, hrow, h⟩ := Fallible.bind_eq_ok h
          cases h
          exact Or.inr ⟨id.toNat, tree, _, by simp only [Query.start, hask, hid], rfl, hsearch,
            Or.inr ⟨rid, row, rfl, hrow, rfl⟩⟩

/-- A query alone reads the row that the index finds for `exec_select`. -/
theorem exists_run_lookup {s : SelectStmt} {row : Row} (h : indexLookup p t disk s = .ok (some row)) :
    ∃ n, run (Query.stepAlone p (t, disk)) (.start s) (List.replicate n ()) = .ok (.rows true [] [] [row]) := by
  rcases indexLookup_cases h with ⟨hnone, -⟩ | ⟨id, tree, found, hstart, htree, hsearch, ⟨-, hnone⟩ |
    ⟨rid, row', hrid, hrow, hsame⟩⟩
  · cases hnone
  · cases hnone
  obtain rfl := Option.some.inj hsame
  have hrows : materializeRows p t disk [rid] = .ok [row] := by
    simp only [materializeRows, hrow, Bind.bind, Except.bind, Pure.pure, Except.pure]
  obtain ⟨n, hn⟩ := run_rows hrows
  have hstep : Query.stepAlone p (t, disk) (.search id) () = _ := step_search htree hsearch
  rw [hrid] at hstep
  refine ⟨n + 1, ?_⟩
  rw [hstart, List.replicate_succ, run_cons_of_ok _ hstep]
  exact hn

/-- When the index finds nothing, it reads all rows, as `exec_select` does. -/
theorem exists_run_scan {s : SelectStmt} {total : ℕ} {rows : List Row} (h : indexLookup p t disk s = .ok none)
    (htotal : t.totalRows 0 = .ok total) (hrows : materializeRows p t disk (List.range total) = .ok rows) :
    ∃ n, run (Query.stepAlone p (t, disk)) (.start s) (List.replicate n ()) = .ok (.rows false [] [] rows) := by
  obtain ⟨n, hn⟩ := exists_run_count htotal hrows
  rcases indexLookup_cases h with ⟨-, hstart⟩ | ⟨id, tree, found, hstart, htree, hsearch, ⟨hnone, -⟩ |
    ⟨rid, row', -, -, hsome⟩⟩
  · exact ⟨n, hstart ▸ hn⟩
  · have hstep : Query.stepAlone p (t, disk) (.search id) () = _ := step_search htree hsearch
    rw [hnone] at hstep
    refine ⟨n + 1, ?_⟩
    rw [hstart, List.replicate_succ, run_cons_of_ok _ hstep]
    exact hn
  · cases hsome

end Alone
/-! ## Glimpses of rows -/

variable {p : Platform} {schema : Schema} {past : List Row} {s s' : Inserting} {row : Row} {rid c : ℕ}

/-- The first values of a row as a query reads them. Only values behind the first one are missed, and
only of a row that is not whole. -/
structure Glimpse (p : Platform) (whole : Prop) (stored read : List Value) : Prop where
  length_le : read.length ≤ stored.length
  value : ∀ (c : ℕ) v w, stored[c]? = some v → read[c]? = some w →
    w = v.stored p ∨ ¬ whole ∧ c ≠ 0 ∧ w = unread p v

theorem Glimpse.nil (p : Platform) (whole : Prop) (stored : List Value) : Glimpse p whole stored [] :=
  ⟨Nat.zero_le _, nofun⟩

theorem Glimpse.concat {whole : Prop} {stored read : List Value} (h : Glimpse p whole stored read) {v w : Value}
    (hv : stored[read.length]? = some v) (hw : w = v.stored p ∨ ¬ whole ∧ read.length ≠ 0 ∧ w = unread p v) :
    Glimpse p whole stored (read ++ [w]) := by
  constructor
  · rw [List.length_append, List.length_singleton]
    exact (List.getElem?_eq_some_iff.mp hv).1
  · intro c v' w' hv' hw'
    rw [List.getElem?_append] at hw'
    split at hw'
    · exact h.value c v' w' hv' hw'
    · rw [List.getElem?_singleton] at hw'
      split at hw'
      · obtain rfl : c = read.length := by omega
        obtain rfl := Option.some.inj (hv.symm.trans hv')
        obtain rfl := Option.some.inj hw'
        exact hw
      · cases hw'

/-- A whole row is read as it is stored. -/
theorem Glimpse.eq_stored {whole : Prop} {stored read : List Value} (h : Glimpse p whole stored read)
    (hlen : read.length = stored.length) (hwhole : whole) : read = stored.map (Value.stored p) := by
  refine List.ext_getElem (by rw [hlen, List.length_map]) fun c hc hc' => ?_
  have hc'' : c < stored.length := hlen ▸ hc
  rw [List.getElem_map]
  exact (h.value c _ _ (List.getElem?_eq_getElem hc'') (List.getElem?_eq_getElem hc)).resolve_right
    fun hmissed => hmissed.1 hwhole

/-- All values of a row are written. -/
def Whole (schema : Schema) (past : List Row) (s : Inserting) (rid : ℕ) : Prop :=
  ∀ c < schema.length, Written past s rid c

/-- A row that was read, or the values of it so far. -/
def Glimpsed (p : Platform) (past : List Row) (s : Inserting) (whole : ℕ → Prop) (rid : ℕ)
    (read : List Value) : Prop :=
  ∃ row, (begun past s)[rid]? = some row ∧ Glimpse p (whole rid) row.values read

/-- What holds between the reads of a query of the rows `all`. -/
structure Reads (p : Platform) (schema : Schema) (past : List Row) (s : Inserting) (whole : ℕ → Prop)
    (all rids : List ℕ) (values : List Value) (read : List Row) : Prop where
  /-- These rows have begun, at least with their first value. -/
  first : ∀ rid ∈ all, Written past s rid 0
  complete : ∀ rid, whole rid → Whole schema past s rid
  rows : ∃ done, all = done ++ rids ∧ List.Forall₂ (fun rid r =>
    r.values.length = schema.length ∧ Glimpsed p past s whole rid r.values) done read
  current : ∀ rid ∈ rids.head?, Glimpsed p past s whole rid values

section Reads

variable {whole : ℕ → Prop} {all rids : List ℕ} {values : List Value} {read : List Row}

theorem Later.glimpsed (h : Later s s') {r : List Value} (hr : Glimpsed p past s whole rid r) :
    Glimpsed p past s' whole rid r := by
  obtain ⟨row, hrow, hglimpse⟩ := hr
  exact ⟨row, h.begun hrow, hglimpse⟩

theorem Later.reads (h : Later s s') (hr : Reads p schema past s whole all rids values read) :
    Reads p schema past s' whole all rids values read where
  first := fun rid hrid => h.written (hr.first rid hrid)
  complete := fun rid hrid c hc => h.written (hr.complete rid hrid c hc)
  rows := by
    obtain ⟨done, hall, hdone⟩ := hr.rows
    exact ⟨done, hall, hdone.imp fun _ _ hrow => hrow.imp_right h.glimpsed⟩
  current := fun rid hrid => h.glimpsed (hr.current rid hrid)

theorem glimpsed_nil (h : Written past s rid c) : Glimpsed p past s whole rid [] :=
  ⟨_, List.getElem?_eq_getElem h.lt, .nil p _ _⟩

/-- A query begins to read its rows. -/
theorem reads_init (hfirst : ∀ rid ∈ all, Written past s rid 0) (hwhole : ∀ rid, whole rid → Whole schema past s rid) :
    Reads p schema past s whole all all [] [] where
  first := hfirst
  complete := hwhole
  rows := ⟨[], rfl, .nil⟩
  current := fun rid hrid => glimpsed_nil (hfirst rid (List.mem_of_mem_head? hrid))

/-- A row has come to its end. -/
theorem Reads.nextRow (h : Reads p schema past s whole all (rid :: rids) values read)
    (hlen : values.length = schema.length) : Reads p schema past s whole all rids [] (read ++ [⟨values⟩]) where
  first := h.first
  complete := h.complete
  rows := by
    obtain ⟨done, hall, hdone⟩ := h.rows
    refine ⟨done ++ [rid], by rw [hall, List.append_assoc]; rfl, List.rel_append hdone ?_⟩
    exact .cons ⟨hlen, h.current rid rfl⟩ .nil
  current := fun rid' hrid' => by
    obtain ⟨done, hall, -⟩ := h.rows
    refine glimpsed_nil (h.first rid' ?_)
    rw [hall]
    exact List.mem_append_right _ (List.mem_cons_of_mem _ (List.mem_of_mem_head? hrid'))

/-- A value is read. -/
theorem Reads.nextValue (h : Reads p schema past s whole all (rid :: rids) values read)
    (hs : Underway schema past s) (hread : ∀ d ∈ schema, d.type.Readable) {d : ColumnDef}
    (hd : schema[values.length]? = some d) :
    ∃ v, Executor.materializeValue p s.table s.disk rid d.type values.length = .ok v ∧
      Reads p schema past s whole all (rid :: rids) (values ++ [v]) read := by
  obtain ⟨row, hrow, hglimpse⟩ := h.current rid rfl
  obtain ⟨v, hv, hcases⟩ := hs.materializeValue (p := p) hread hd hrow
  have hmem : rid ∈ all := by
    obtain ⟨done, hall, -⟩ := h.rows
    rw [hall]
    exact List.mem_append_right _ List.mem_cons_self
  have hnext : ∀ w, (w = v.stored p ∨ ¬ whole rid ∧ values.length ≠ 0 ∧ w = unread p v) →
      Reads p schema past s whole all (rid :: rids) (values ++ [w]) read := by
    intro w hw
    refine ⟨h.first, h.complete, h.rows, fun rid' hrid' => ?_⟩
    obtain rfl := Option.some.inj hrid'
    exact ⟨row, hrow, hglimpse.concat hv hw⟩
  rcases hcases with ⟨-, hok⟩ | ⟨hnot, hok⟩
  · exact ⟨_, hok, hnext _ (Or.inl rfl)⟩
  · refine ⟨_, hok, hnext _ (Or.inr ⟨fun hwhole => hnot ?_, fun hzero => hnot ?_, rfl⟩)⟩
    · exact h.complete rid hwhole _ (List.getElem?_eq_some_iff.mp hd).1
    · rw [hzero]
      exact h.first rid hmem

/-- How many steps the reads still take. -/
def stepsLeft (schema : Schema) (rids : List ℕ) (values : List Value) : ℕ :=
  rids.length * (schema.length + 1) + (schema.length - values.length)

/-- The next step among the rows of a query. -/
theorem Reads.step (h : Reads p schema past s whole all (rid :: rids) values read)
    (hs : Underway schema past s) (hread : ∀ d ∈ schema, d.type.Readable) (indexed : Bool) :
    ∃ rids' values' read', Query.step p s.table s.disk (.rows indexed (rid :: rids) values read) =
      .ok (.rows indexed rids' values' read') ∧ Reads p schema past s whole all rids' values' read' ∧
      stepsLeft schema rids' values' < stepsLeft schema (rid :: rids) values := by
  simp only [Query.step, hs.schema_eq]
  cases hd : schema[values.length]? with
  | none =>
    have hle := List.getElem?_eq_none_iff.mp hd
    obtain ⟨row, hrow, hglimpse⟩ := h.current rid rfl
    have hfull := hs.full_begun (List.mem_of_getElem? hrow)
    have hlen : values.length = schema.length := le_antisymm (hfull.length_eq ▸ hglimpse.length_le) hle
    refine ⟨rids, [], _, rfl, h.nextRow hlen, ?_⟩
    simp only [stepsLeft, List.length_cons, List.length_nil, Nat.add_mul]
    omega
  | some d =>
    obtain ⟨v, hv, hnext⟩ := h.nextValue hs hread hd
    have hlt := (List.getElem?_eq_some_iff.mp hd).1
    refine ⟨rid :: rids, values ++ [v], read, ?_, hnext, ?_⟩
    · simp only [hv, Bind.bind, Except.bind, Pure.pure, Except.pure]
    · simp only [stepsLeft, List.length_append, List.length_singleton]
      omega

end Reads

/-! ## Queries -/

/-- What holds along a query that began as `q₀` in the state `s₀`. -/
def Tracks (p : Platform) (schema : Schema) (past : List Row) (s₀ s : Inserting) (q₀ : Query) : Query → Prop
  | .search id => q₀ = .search id
  | .count => True
  | .rows true rids values read => ∃ rid row id, q₀ = .search id ∧ (begun past s)[rid]? = some row ∧
      rowKey row = id ∧ Reads p schema past s (· = rid) [rid] rids values read
  | .rows false rids values read => ∃ total, (∀ rid, Whole schema past s₀ rid → rid < total) ∧
      Reads p schema past s (Whole schema past s₀) (List.range total) rids values read

variable {s₀ : Inserting} {q₀ q : Query}

theorem Later.tracks (h : Later s s') (hq : Tracks p schema past s₀ s q₀ q) : Tracks p schema past s₀ s' q₀ q := by
  cases q with
  | search id => exact hq
  | count => trivial
  | rows indexed rids values read =>
    cases indexed with
    | true =>
      obtain ⟨rid, row, id, hid, hrow, hkey, hreads⟩ := hq
      exact ⟨rid, row, id, hid, h.begun hrow, hkey, h.reads hreads⟩
    | false =>
      obtain ⟨total, htotal, hreads⟩ := hq
      exact ⟨total, htotal, h.reads hreads⟩

/-- The index leads to a row with the key, and all of it is written. -/
theorem Underway.search (h : Underway schema past s) (hindex : s.table.HasIndex) (id : ℕ) :
    ∃ tree out, s.table.indexManager.getIndex pkName = some tree ∧ tree.search id = .ok out ∧
      ∀ rid ∈ out.1, ∃ row, (begun past s)[rid]? = some row ∧ rowKey row = id ∧ Whole schema past s rid := by
  obtain ⟨es, hes, hsource⟩ := h.index
  obtain ⟨tree, htree, hholds⟩ := hes hindex
  obtain ⟨r, tree', hsearch, -, hsound⟩ := hholds.search_sound id
  refine ⟨tree, _, htree, hsearch, fun rid hrid => ?_⟩
  rcases hsource _ (hsound rid hrid) with hpast | ⟨call, hcall, hpc, heq⟩
  · obtain ⟨row, hrow, hkey⟩ := mem_keyEntries hpast
    have hlt := (List.getElem?_eq_some_iff.mp hrow).1
    refine ⟨row, ?_, hkey, fun c _ => Or.inl hlt⟩
    rw [begun_getElem?, if_pos hlt, hrow]
  · obtain ⟨rfl, rfl⟩ := Prod.mk.inj heq
    obtain ⟨k, hk⟩ := List.getElem?_of_mem hcall
    have hrid' := h.numbered k call hk
    have hsub : call.rid - past.length = k := by omega
    refine ⟨call.row, ?_, rfl, fun c hc => Or.inr ⟨call, hsub ▸ hk, by omega⟩⟩
    rw [begun_getElem?, if_neg (by omega), hsub, hk, Option.map_some]

/-- The first column has as many items as rows have a value there. -/
theorem Underway.lt_items_iff (h : Underway schema past s) (hne : schema ≠ []) (rid : ℕ) :
    rid < (items past s.calls 0).length ↔ Written past s rid 0 := by
  have hc := List.length_pos_iff.mpr hne
  by_cases hlt : rid < (begun past s).length
  · have hrow := List.getElem?_eq_getElem hlt
    have hfull := h.full_begun (List.mem_of_getElem? hrow)
    have hv := List.getElem?_eq_getElem (hfull.length_eq ▸ hc : 0 < ((begun past s)[rid]).values.length)
    rcases h.item hc hrow hv with ⟨hw, hitem⟩ | ⟨hw, hitem⟩
    · exact iff_of_true (List.getElem?_eq_some_iff.mp hitem).1 hw
    · exact iff_of_false (Nat.not_lt.mpr (List.getElem?_eq_none_iff.mp hitem)) hw
  · refine iff_of_false (fun hitems => hlt (hitems.trans_le ?_)) fun hw => hlt hw.lt
    rw [items, begun, List.length_append, List.length_append, List.length_map]
    exact Nat.add_le_add (List.length_filterMap_le ..) (List.length_filterMap_le ..)

/-- A query takes its next step, whatever the insertions have done. -/
theorem Tracks.step (hq : Tracks p schema past s₀ s q₀ q) (h : Underway schema past s) (hlater : Later s₀ s)
    (hne : schema ≠ []) (hread : ∀ d ∈ schema, d.type.Readable)
    (hindex : ∀ id, q₀ = .search id → s.table.HasIndex) :
    ∃ q', q.step p s.table s.disk = .ok q' ∧ Tracks p schema past s₀ s q₀ q' := by
  cases q with
  | search id =>
    obtain ⟨tree, ⟨r, tree'⟩, htree, hsearch, hfound⟩ := h.search (hindex id hq) id
    refine ⟨_, step_search htree hsearch, ?_⟩
    cases r with
    | none => trivial
    | some rid =>
      obtain ⟨row, hrow, hkey, hwhole⟩ := hfound rid rfl
      refine ⟨rid, row, id, hq, hrow, hkey, reads_init (fun rid' hrid' => ?_) fun rid' hrid' => ?_⟩
      · rw [List.mem_singleton.mp hrid']
        exact hwhole 0 (List.length_pos_iff.mpr hne)
      · rw [hrid']
        exact hwhole
  | count =>
    obtain ⟨d, schema', hschema⟩ := List.exists_cons_of_ne_nil (h.schema_eq ▸ hne)
    have hd : s.table.schema[0]? = some d := by rw [hschema]; rfl
    have htotal := totalRows_eq h.columns hd
    refine ⟨.rows false (List.range (items past s.calls 0).length) [] [], ?_, _, fun rid hrid => ?_,
      reads_init (fun rid hrid => ?_) fun rid hrid c hc => hlater.written (hrid c hc)⟩
    · simp only [Query.step, htotal, Bind.bind, Except.bind, Pure.pure, Except.pure]
    · exact (h.lt_items_iff hne rid).mpr (hlater.written (hrid 0 (List.length_pos_iff.mpr hne)))
    · exact (h.lt_items_iff hne rid).mp (List.mem_range.mp hrid)
  | rows indexed rids values read =>
    cases rids with
    | nil => exact ⟨_, rfl, hq⟩
    | cons rid rids =>
      cases indexed with
      | true =>
        obtain ⟨rid', row, id, hid, hrow, hkey, hreads⟩ := hq
        obtain ⟨rids', values', read', hstep, hreads', -⟩ := hreads.step h hread true
        exact ⟨_, hstep, rid', row, id, hid, hrow, hkey, hreads'⟩
      | false =>
        obtain ⟨total, htotal, hreads⟩ := hq
        obtain ⟨rids', values', read', hstep, hreads', -⟩ := hreads.step h hread false
        exact ⟨_, hstep, total, htotal, hreads'⟩

/-- The reads among the rows come to an end. -/
theorem Reads.exists_ended {whole : ℕ → Prop} {all rids : List ℕ} {values : List Value} {read : List Row}
    (h : Reads p schema past s whole all rids values read) (hs : Underway schema past s)
    (hread : ∀ d ∈ schema, d.type.Readable) (indexed : Bool) :
    ∃ n q', run (Query.stepAlone p (s.table, s.disk)) (.rows indexed rids values read) (List.replicate n ()) =
      .ok q' ∧ q'.Ended := by
  generalize hleft : stepsLeft schema rids values = left
  induction left using Nat.strong_induction_on generalizing rids values read with
  | _ left ih =>
    cases rids with
    | nil => exact ⟨0, _, rfl, rfl⟩
    | cons rid rids =>
      obtain ⟨rids', values', read', hstep, hreads, hlt⟩ := h.step hs hread indexed
      obtain ⟨n, q', hrun, hended⟩ := ih _ (hleft ▸ hlt) hreads rfl
      refine ⟨n + 1, q', ?_, hended⟩
      rw [List.replicate_succ, run_cons_of_ok (t := .rows indexed rids' values' read') _ hstep, hrun]

/-- So does a query from the look at the number of rows on. -/
theorem Underway.exists_ended_count (h : Underway schema past s) (hne : schema ≠ [])
    (hread : ∀ d ∈ schema, d.type.Readable) :
    ∃ n q', run (Query.stepAlone p (s.table, s.disk)) .count (List.replicate n ()) = .ok q' ∧ q'.Ended := by
  have htracks : Tracks p schema past s s .count .count := trivial
  obtain ⟨q', hstep, htracks'⟩ := htracks.step h (.refl s) hne hread nofun
  obtain ⟨total, -, hq'⟩ := Fallible.bind_eq_ok hstep
  cases hq'
  obtain ⟨_, -, hreads⟩ := htracks'
  obtain ⟨n, q', hrun, hended⟩ := hreads.exists_ended h hread false
  refine ⟨n + 1, q', ?_, hended⟩
  rw [List.replicate_succ, run_cons_of_ok (t := .rows false (List.range total) [] []) _ hstep, hrun]

/-- A query that is left alone comes to an end. -/
theorem Tracks.exists_ended (hq : Tracks p schema past s₀ s q₀ q) (h : Underway schema past s)
    (hlater : Later s₀ s) (hne : schema ≠ []) (hread : ∀ d ∈ schema, d.type.Readable)
    (hindex : ∀ id, q₀ = .search id → s.table.HasIndex) :
    ∃ n q', run (Query.stepAlone p (s.table, s.disk)) q (List.replicate n ()) = .ok q' ∧ q'.Ended := by
  cases q with
  | search id =>
    obtain ⟨tree, ⟨r, tree'⟩, htree, hsearch, -⟩ := h.search (hindex id hq) id
    have hstep : Query.step p s.table s.disk (.search id) = _ := step_search htree hsearch
    obtain ⟨q', hstep', htracks⟩ := hq.step h hlater hne hread hindex
    obtain rfl := Except.ok.inj (hstep.symm.trans hstep')
    have hrest : ∃ n q', run (Query.stepAlone p (s.table, s.disk)) (r.elim .count fun rid => .rows true [rid] [] [])
        (List.replicate n ()) = .ok q' ∧ q'.Ended := by
      cases r with
      | none => exact h.exists_ended_count hne hread
      | some rid =>
        obtain ⟨_, _, _, -, -, -, hreads⟩ := htracks
        exact hreads.exists_ended h hread true
    obtain ⟨n, q', hrun, hended⟩ := hrest
    refine ⟨n + 1, q', ?_, hended⟩
    rw [List.replicate_succ, run_cons_of_ok _ hstep, hrun]
  | count => exact h.exists_ended_count hne hread
  | rows indexed rids values read =>
    cases indexed with
    | true =>
      obtain ⟨_, _, _, -, -, -, hreads⟩ := hq
      exact hreads.exists_ended h hread true
    | false =>
      obtain ⟨_, -, hreads⟩ := hq
      exact hreads.exists_ended h hread false

/-! ## Whole runs -/

theorem run_read {i : Inserting} {n : ℕ} {q' : Query}
    (h : run (Query.stepAlone p (i.table, i.disk)) q (List.replicate n ()) = .ok q') :
    run (Reading.step p) ⟨i, q⟩ (List.replicate n .read) = .ok ⟨i, q'⟩ := by
  induction n generalizing q with
  | zero =>
    cases h
    rfl
  | succ n ih =>
    obtain ⟨u, hu, h⟩ := run_cons_eq_ok h
    have hstep : Reading.step p ⟨i, q⟩ .read = .ok ⟨i, u⟩ := by
      rw [Query.stepAlone] at hu
      simp only [Reading.step, hu, Bind.bind, Except.bind, Pure.pure, Except.pure]
    rw [List.replicate_succ, run_cons_of_ok _ hstep, ih h]

theorem underway_of_run {choices : List Choice} (h : Underway schema past s) (hne : schema ≠ [])
    (hguard : Guarded Server.step Server.Orderly s choices) (hrun : run Server.step s choices = .ok s') :
    Underway schema past s' :=
  hguard.run_induction (fun _ s => Underway schema past s)
    (fun _ _ _ _ h hchoice hstep => (h.step hne hchoice hstep).1) h hrun

/-- What has been read at the end of a query that began in the state `i`: the row to which the index
leads, as it is stored, or the rows with the first numbers. The rows that were whole are among these and
are read as they are stored. -/
def Answered (p : Platform) (past : List Row) (s : SelectStmt) (i : Inserting) (r : Reading) : Prop :=
  (∃ id row, Query.start s = .search id ∧ row ∈ begun past r.inserting ∧ rowKey row = id ∧
    r.query.result = some (true, [Executor.storedRow p row])) ∨
  ∃ read, r.query.result = some (false, read) ∧ (∀ rid, Whole i.table.schema past i rid → rid < read.length) ∧
    ∀ (rid : ℕ) seen, read[rid]? = some seen → ∃ row, (begun past r.inserting)[rid]? = some row ∧
      seen.values.length = row.values.length ∧
      Glimpse p (Whole i.table.schema past i rid) row.values seen.values ∧
      (Whole i.table.schema past i rid → seen = Executor.storedRow p row)

/-- The rows that were read, by their numbers. -/
theorem Reads.read_getElem? {whole : ℕ → Prop} {all : List ℕ} {values : List Value} {read : List Row}
    (h : Reads p schema past s whole all [] values read) (hs : Underway schema past s) :
    read.length = all.length ∧ ∀ (k : ℕ) seen, read[k]? = some seen → ∃ rid row, all[k]? = some rid ∧
      (begun past s)[rid]? = some row ∧ seen.values.length = row.values.length ∧
      Glimpse p (whole rid) row.values seen.values ∧ (whole rid → seen = Executor.storedRow p row) := by
  obtain ⟨done, hall, hdone⟩ := h.rows
  rw [List.append_nil] at hall
  subst hall
  refine ⟨hdone.length_eq.symm, fun k seen hseen => ?_⟩
  obtain ⟨hk, rfl⟩ := List.getElem?_eq_some_iff.mp hseen
  have hk' : k < all.length := hdone.length_eq ▸ hk
  obtain ⟨hlen, row, hrow, hglimpse⟩ := (List.forall₂_iff_get.mp hdone).2 k hk' hk
  have hfull := hs.full_begun (List.mem_of_getElem? hrow)
  refine ⟨_, row, List.getElem?_eq_getElem hk', hrow, hlen.trans hfull.length_eq.symm, hglimpse, fun hwhole => ?_⟩
  have hstored := hglimpse.eq_stored (hlen.trans hfull.length_eq.symm) hwhole
  exact congrArg Row.mk hstored

theorem Tracks.answered {stmt : SelectStmt} {i : Inserting} {r : Reading} (h : Underway schema past r.inserting)
    (hschema : i.table.schema = schema) (hq : Tracks p schema past i r.inserting (.start stmt) r.query)
    (hended : r.query.Ended) : Answered p past stmt i r := by
  obtain ⟨inserting, query⟩ := r
  cases query with
  | search id => cases hended
  | count => cases hended
  | rows indexed rids values read =>
    cases rids with
    | cons rid rids => cases hended
    | nil =>
      cases indexed with
      | true =>
        obtain ⟨rid, row, id, hid, hrow, hkey, hreads⟩ := hq
        obtain ⟨hlen, hread⟩ := hreads.read_getElem? h
        obtain ⟨seen, rfl⟩ := List.length_eq_one_iff.mp hlen
        obtain ⟨rid', row', hrid', hrow', -, -, hstored⟩ := hread 0 seen rfl
        obtain rfl := Option.some.inj hrid'
        obtain rfl := Option.some.inj (hrow.symm.trans hrow')
        refine Or.inl ⟨id, row, hid, List.mem_of_getElem? hrow, hkey, ?_⟩
        rw [hstored rfl]
        rfl
      | false =>
        obtain ⟨total, htotal, hreads⟩ := hq
        obtain ⟨hlen, hread⟩ := hreads.read_getElem? h
        rw [List.length_range] at hlen
        rw [Answered, hschema]
        refine Or.inr ⟨read, rfl, fun rid hrid => hlen ▸ htotal rid hrid, fun rid seen hseen => ?_⟩
        obtain ⟨rid', row, hrid', hrow⟩ := hread rid seen hseen
        obtain ⟨hrid, rfl⟩ := List.getElem?_eq_some_iff.mp hrid'
        rw [List.getElem_range] at hrow
        exact ⟨row, hrow⟩

/-- A turn of an insertion or of the query. -/
theorem step_tracks {r r' : Reading} {turn : Turn} (hne : schema ≠ []) (hread : ∀ d ∈ schema, d.type.Readable)
    (hindex : ∀ id, q₀ = .search id → ∀ i, Underway schema past i → i.table.HasIndex)
    (h : Underway schema past r.inserting ∧ Later s₀ r.inserting ∧ Tracks p schema past s₀ r.inserting q₀ r.query)
    (hguard : Reading.Orderly r turn) (hstep : Reading.step p r turn = .ok r') :
    Underway schema past r'.inserting ∧ Later s₀ r'.inserting ∧
      Tracks p schema past s₀ r'.inserting q₀ r'.query := by
  obtain ⟨hs, hlater, hq⟩ := h
  cases turn with
  | insert choice =>
    obtain ⟨i, hi, hr⟩ := Fallible.bind_eq_ok hstep
    cases hr
    obtain ⟨hs', hlater'⟩ := hs.step hne hguard hi
    exact ⟨hs', hlater.trans hlater', hlater'.tracks hq⟩
  | read =>
    obtain ⟨q', hq', hr⟩ := Fallible.bind_eq_ok hstep
    cases hr
    obtain ⟨q'', hq'', htracks⟩ := hq.step hs hlater hne hread fun id hid => hindex id hid _ hs
    obtain rfl := Except.ok.inj (hq'.symm.trans hq'')
    exact ⟨hs, hlater, htracks⟩

theorem tracks_start (s₀ s : Inserting) (stmt : SelectStmt) :
    Tracks p schema past s₀ s (.start stmt) (.start stmt) := by
  cases hq : Query.start stmt with
  | search id => exact rfl
  | count => trivial
  | rows indexed rids values read =>
    unfold Query.start at hq
    split at hq
    · cases hq
    · split at hq <;> cases hq

/-- The row `(1, 10)` is there, and of `(2, 20)` only the `ID`. -/
def oneAndAHalf : List Choice := [.start 0, .advance 0, .advance 0, .advance 0, .start 0, .advance 1]

/-- The second row gets its `V` right behind the look at it. -/
def lateValue : List Turn := [.read, .read, .read, .read, .read, .read, .insert (.advance 1), .read]

def selectV : SelectStmt := (Parser.parse (str "SELECT V FROM T")).selectStmt

end FlexQL.Server
