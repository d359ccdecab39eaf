import FlexQL.Storage.InsertEvents
import Mathlib.Data.List.Permutation

/-!
# Insertions of several clients

The threads of the server run `insert_row` on one table, and nothing keeps them apart: between two
steps of one call, other calls take steps of theirs. Reading the number of the next row, appending
to a column and inserting into the index are one step each.
-/

namespace FlexQL.Server

open Fallible Runs Traces Table Text

/-- A call of `insert_row` that has read its row number and taken `pc` of the steps behind. -/
structure Call where
  row : Row
  rid : ℕ
  pc : ℕ
  deriving DecidableEq, Repr

namespace Call

def events (schema : Schema) (call : Call) : List Event := rowEvents schema call.row call.rid

def taken (schema : Schema) (call : Call) : List Event := (call.events schema).take call.pc

def rest (schema : Schema) (call : Call) : List Event := (call.events schema).drop call.pc

end Call

/-- A table, the rows whose calls have not begun, and the calls that have, in the order in which
they read their row numbers. -/
structure Inserting where
  table : Table
  disk : Disk
  waiting : List Row
  calls : List Call

/-- Which thread goes next. -/
inductive Choice
  | start (i : ℕ)
  | advance (k : ℕ)
  deriving DecidableEq, Repr

/-- A call begins with `get_total_rows` of the first column. -/
def start (s : Inserting) (i : ℕ) : Except Fault Inserting :=
  match s.waiting[i]? with
  | none => .ok s
  | some row => do
    let rid ← s.table.nextRid
    return { s with waiting := s.waiting.eraseIdx i, calls := s.calls ++ [⟨row, rid, 0⟩] }

/-- A call takes its next step. A call that has returned takes none. -/
def advance (s : Inserting) (k : ℕ) : Except Fault Inserting :=
  match s.calls[k]? with
  | none => .ok s
  | some call =>
    match (call.rest s.table.schema).head? with
    | none => .ok s
    | some e => do
      let (table, disk) ← eventStep (s.table, s.disk) e
      return { s with
        table := table, disk := disk, calls := s.calls.set k { call with pc := call.pc + 1 } }

def step (s : Inserting) : Choice → Except Fault Inserting
  | .start i => start s i
  | .advance k => advance s k

/-- All calls have returned. -/
def Inserting.Returned (s : Inserting) : Prop :=
  s.waiting = [] ∧ ∀ call ∈ s.calls, call.rest s.table.schema = []

instance (s : Inserting) : Decidable s.Returned :=
  inferInstanceAs (Decidable (s.waiting = [] ∧ ∀ call ∈ s.calls, call.rest s.table.schema = []))

/-- The table is what the calls leave behind when they run one after the other in some order. -/
def Serialisable (t : Table) (disk : Disk) (rows : List Row) (s : Inserting) : Prop :=
  ∃ rows', rows'.Perm rows ∧ run insertStep (t, disk) rows' = .ok (s.table, s.disk)

/-- A call reads its row number when no other call still has to append to the first column, and
nowhere does a call overtake one that has read its row number before. -/
def Orderly (s : Inserting) : Choice → Prop
  | .start _ => ∀ call ∈ s.calls, ∀ e ∈ call.rest s.table.schema, e.target ≠ some 0
  | .advance k => ∀ call ∈ s.calls[k]?, ∀ e ∈ (call.rest s.table.schema).head?,
    ∀ earlier ∈ s.calls.take k, ∀ e' ∈ earlier.rest s.table.schema, e.target ≠ e'.target

instance (s : Inserting) : ∀ choice, Decidable (Orderly s choice)
  | .start _ => inferInstanceAs
    (Decidable (∀ call ∈ s.calls, ∀ e ∈ call.rest s.table.schema, e.target ≠ some 0))
  | .advance k => inferInstanceAs
    (Decidable (∀ call ∈ s.calls[k]?, ∀ e ∈ (call.rest s.table.schema).head?,
      ∀ earlier ∈ s.calls.take k, ∀ e' ∈ earlier.rest s.table.schema, e.target ≠ e'.target))

/-! ## Calls and their steps -/

variable {schema : Schema}

theorem Call.rest_eq_cons {call : Call} {e : Event} (h : (call.rest schema).head? = some e) :
    call.rest schema = e :: ({ call with pc := call.pc + 1 } : Call).rest schema := by
  obtain ⟨l, hl⟩ := List.head?_eq_some_iff.mp h
  have htail : (call.rest schema).tail = ({ call with pc := call.pc + 1 } : Call).rest schema :=
    List.tail_drop
  rw [← htail, hl, List.tail_cons]

theorem Call.taken_append_rest (schema : Schema) (call : Call) :
    call.taken schema ++ call.rest schema = call.events schema := List.take_append_drop ..

theorem Call.taken_succ {call : Call} {e : Event} (h : (call.rest schema).head? = some e) :
    ({ call with pc := call.pc + 1 } : Call).taken schema = call.taken schema ++ [e] := by
  have hnow := call.taken_append_rest schema
  have hthen := ({ call with pc := call.pc + 1 } : Call).taken_append_rest schema
  rw [call.rest_eq_cons h, List.append_cons] at hnow
  exact List.append_cancel_right (hthen.trans hnow.symm)

/-- The steps of the calls behind a list have not come to what a list still has to do. -/
def Ordered (schema : Schema) (calls : List Call) : Prop :=
  calls.Pairwise fun a b => ∀ e ∈ b.taken schema, ∀ e' ∈ a.rest schema, e.target ≠ e'.target

/-- Each call has the row number that the calls before it leave behind. -/
def Numbered (schema : Schema) : ℕ → List Call → Prop
  | _, [] => True
  | n, call :: calls => call.rid = n ∧ Numbered schema (ridAfter n (call.events schema)) calls

theorem numbered_concat {n : ℕ} {calls : List Call} {call : Call} :
    Numbered schema n (calls ++ [call]) ↔
      Numbered schema n calls ∧ call.rid = ridAfter n (calls.flatMap (Call.events schema)) := by
  induction calls generalizing n with
  | nil => simp [Numbered, ridAfter]
  | cons c calls ih =>
    simp only [List.cons_append, Numbered, ih, List.flatMap_cons, ridAfter_append, and_assoc]

/-- The numbers stay when a call takes a step. -/
theorem Numbered.set {n : ℕ} {calls : List Call} (h : Numbered schema n calls) {k : ℕ} {call : Call}
    (hcall : calls[k]? = some call) (pc : ℕ) :
    Numbered schema n (calls.set k { call with pc := pc }) := by
  induction calls generalizing n k with
  | nil => exact h
  | cons c calls ih =>
    cases k with
    | zero =>
      cases hcall
      exact h
    | succ k => exact ⟨h.1, ih h.2 hcall⟩

/-- The steps of numbered calls, one call after the other, are a run of `insert_row`. -/
theorem run_insertStep_of_numbered {st r : Table × Disk} {calls : List Call} {n : ℕ}
    (hsep : st.1.Separate) (hn : st.1.nextRid = .ok n)
    (hnumbered : Numbered st.1.schema n calls)
    (hrun : run eventStep st (calls.flatMap (Call.events st.1.schema)) = .ok r) :
    run insertStep st (calls.map Call.row) = .ok r := by
  induction calls generalizing st n with
  | nil => exact hrun
  | cons call calls ih =>
    obtain ⟨hrid, hrest⟩ := hnumbered
    obtain ⟨u, hu, hrun'⟩ := run_append_eq_ok hrun
    have hschema := run_eventStep_schema hu
    have hinsert : insertStep st call.row = .ok u := by
      rw [insertStep, insertRow_eq_run, hn, ← hrid]
      exact hu
    rw [List.map_cons, run_cons_of_ok _ hinsert]
    have hnext := nextRid_run hsep hu hn
    rw [← hschema] at hrest hrun' hnext
    exact ih (independent_eventStep.keeps_run hsep hu) hnext hrest hrun'

/-! ## The invariant -/

/-- What holds along a run in which the calls keep their order. The steps taken so far are those of
the calls, up to the order between different columns. -/
structure Tracked (t : Table) (disk : Disk) (n : ℕ) (rows : List Row) (s : Inserting) : Prop where
  perm : (s.calls.map Call.row ++ s.waiting).Perm rows
  log : ∃ log, run eventStep (t, disk) log = .ok (s.table, s.disk) ∧
    ∀ c, proj Event.target c log = proj Event.target c (s.calls.flatMap (Call.taken t.schema))
  ordered : Ordered t.schema s.calls
  numbered : Numbered t.schema n s.calls

variable {t : Table} {disk : Disk} {n : ℕ} {rows : List Row} {s s' : Inserting}

theorem Tracked.schema_eq (h : Tracked t disk n rows s) : s.table.schema = t.schema := by
  obtain ⟨log, hrun, -⟩ := h.log
  exact run_eventStep_schema hrun

theorem tracked_init (t : Table) (disk : Disk) (n : ℕ) (rows : List Row) :
    Tracked t disk n rows ⟨t, disk, rows, []⟩ :=
  ⟨.refl _, ⟨[], rfl, fun _ => rfl⟩, .nil, trivial⟩

theorem start_cases {i : ℕ} (h : start s i = .ok s') :
    s' = s ∨ ∃ row rid, s.waiting[i]? = some row ∧ s.table.nextRid = .ok rid ∧
      s' = { s with waiting := s.waiting.eraseIdx i, calls := s.calls ++ [⟨row, rid, 0⟩] } := by
  unfold start at h
  split at h
  · cases h
    exact Or.inl rfl
  · rename_i row hrow
    cases hrid : s.table.nextRid with
    | error f => simp [hrid, Bind.bind, Except.bind] at h
    | ok rid =>
      simp only [hrid, Bind.bind, Except.bind, Pure.pure, Except.pure, Except.ok.injEq] at h
      exact Or.inr ⟨row, rid, hrow, rfl, h.symm⟩

theorem advance_cases {k : ℕ} (h : advance s k = .ok s') :
    s' = s ∨ ∃ call e r, s.calls[k]? = some call ∧
      (call.rest s.table.schema).head? = some e ∧ eventStep (s.table, s.disk) e = .ok r ∧
      s' = { s with
        table := r.1, disk := r.2, calls := s.calls.set k { call with pc := call.pc + 1 } } := by
  unfold advance at h
  split at h
  · cases h
    exact Or.inl rfl
  · rename_i call hcall
    split at h
    · cases h
      exact Or.inl rfl
    · rename_i e he
      cases hr : eventStep (s.table, s.disk) e with
      | error f => simp [hr, Bind.bind, Except.bind] at h
      | ok r =>
        simp only [hr, Bind.bind, Except.bind, Pure.pure, Except.pure, Except.ok.injEq] at h
        exact Or.inr ⟨call, e, r, hcall, he, hr, h.symm⟩

/-- Steps that have been taken, and steps that do not append to the first column, make up all that
the row number depends on. -/
theorem ridAfter_taken {calls : List Call} (n : ℕ)
    (h : ∀ call ∈ calls, ∀ e ∈ call.rest schema, e.target ≠ some 0) :
    ridAfter n (calls.flatMap (Call.taken schema)) =
      ridAfter n (calls.flatMap (Call.events schema)) := by
  induction calls generalizing n with
  | nil => rfl
  | cons call calls ih =>
    have hrest : proj Event.target (some 0) (call.rest schema) = [] :=
      proj_eq_nil (h call List.mem_cons_self)
    have hcall : ridAfter n (call.taken schema) = ridAfter n (call.events schema) := by
      rw [← call.taken_append_rest schema, ridAfter, ridAfter, proj_append, hrest, List.append_nil]
    rw [List.flatMap_cons, List.flatMap_cons, ridAfter_append, ridAfter_append, hcall]
    exact ih _ fun c hc => h c (List.mem_cons_of_mem _ hc)

theorem Tracked.start (h : Tracked t disk n rows s) (hsep : t.Separate) (hn : t.nextRid = .ok n)
    {i : ℕ} (hguard : Orderly s (.start i)) (hstep : start s i = .ok s') :
    Tracked t disk n rows s' := by
  rcases start_cases hstep with rfl | ⟨row, rid, hrow, hrid, rfl⟩
  · exact h
  · obtain ⟨log, hrun, hlog⟩ := h.log
    have hnone : Call.taken t.schema ⟨row, rid, 0⟩ = [] := rfl
    constructor
    · obtain ⟨hi, rfl⟩ := List.getElem?_eq_some_iff.mp hrow
      have hwaiting := List.getElem_cons_eraseIdx_perm hi
      have hsame := (hwaiting.append_left (s.calls.map Call.row)).trans h.perm
      simpa using hsame
    · refine ⟨log, hrun, fun c => ?_⟩
      rw [hlog, List.flatMap_append, List.flatMap_singleton, hnone, List.append_nil]
    · refine List.pairwise_append.mpr ⟨h.ordered, List.pairwise_singleton _ _, ?_⟩
      intro a _ b hb e he
      obtain rfl := List.mem_singleton.mp hb
      cases he
    · refine numbered_concat.mpr ⟨h.numbered, ?_⟩
      have hguard' : ∀ call ∈ s.calls, ∀ e ∈ call.rest t.schema, e.target ≠ some 0 := by
        rw [← h.schema_eq]
        exact hguard
      have hafter := nextRid_run hsep hrun hn
      rw [hrid, Except.ok.injEq] at hafter
      rw [← ridAfter_taken n hguard', hafter, ridAfter, ridAfter, hlog]

/-- The calls before a call, and those behind it. -/
theorem exists_split {calls : List Call} {k : ℕ} {call : Call} (h : calls[k]? = some call) :
    ∃ before behind, calls = before ++ call :: behind ∧ calls.take k = before ∧
      ∀ c, calls.set k c = before ++ c :: behind := by
  obtain ⟨hk, rfl⟩ := List.getElem?_eq_some_iff.mp h
  refine ⟨calls.take k, calls.drop (k + 1), ?_, rfl, ?_⟩
  · rw [← List.drop_eq_getElem_cons hk, List.take_append_drop]
  · intro c
    rw [List.set_eq_take_append_cons_drop, if_pos hk]

section Advance

variable {before behind : List Call} {call : Call} {e : Event}

/-- A call that overtakes nobody keeps the calls in order. -/
theorem Ordered.advance (h : Ordered schema (before ++ call :: behind))
    (he : (call.rest schema).head? = some e)
    (hbefore : ∀ earlier ∈ before, ∀ e' ∈ earlier.rest schema, e.target ≠ e'.target) :
    Ordered schema (before ++ { call with pc := call.pc + 1 } :: behind) := by
  obtain ⟨hfirst, hlast, hacross⟩ := List.pairwise_append.mp h
  obtain ⟨hcall, hbehind⟩ := List.pairwise_cons.mp hlast
  refine List.pairwise_append.mpr ⟨hfirst, List.pairwise_cons.mpr ⟨?_, hbehind⟩, ?_⟩
  · intro b hb x hx y hy
    apply hcall b hb x hx
    rw [call.rest_eq_cons he]
    exact List.mem_cons_of_mem _ hy
  · intro a ha b hb x hx y hy
    rcases List.mem_cons.mp hb with rfl | hb
    · rw [call.taken_succ he] at hx
      rcases List.mem_append.mp hx with hx | hx
      · exact hacross a ha call List.mem_cons_self x hx y hy
      · obtain rfl := List.mem_singleton.mp hx
        exact hbefore a ha y hy
    · exact hacross a ha b (List.mem_cons_of_mem _ hb) x hx y hy

/-- Its step may as well come last. -/
theorem Ordered.proj_taken (h : Ordered schema (before ++ call :: behind))
    (he : (call.rest schema).head? = some e) (c : Option ℕ) :
    proj Event.target c ((before ++ call :: behind).flatMap (Call.taken schema) ++ [e]) =
      proj Event.target c
        ((before ++ { call with pc := call.pc + 1 } :: behind).flatMap (Call.taken schema)) := by
  have hbehind : ∀ x ∈ behind.flatMap (Call.taken schema), e.target ≠ x.target := by
    intro x hx heq
    obtain ⟨b, hb, hxb⟩ := List.mem_flatMap.mp hx
    have hcall := (List.pairwise_cons.mp (List.pairwise_append.mp h).2.1).1
    refine hcall b hb x hxb e ?_ heq.symm
    rw [call.rest_eq_cons he]
    exact List.mem_cons_self
  simp only [List.flatMap_append, List.flatMap_cons, List.append_assoc, call.taken_succ he,
    proj_append _ _ (before.flatMap _), proj_append _ _ (call.taken schema), proj_move hbehind]
  rfl

end Advance

theorem Tracked.advance (h : Tracked t disk n rows s) {k : ℕ} (hguard : Orderly s (.advance k))
    (hstep : advance s k = .ok s') : Tracked t disk n rows s' := by
  rcases advance_cases hstep with rfl | ⟨call, e, r, hcall, he, hr, rfl⟩
  · exact h
  · have hearlier := hguard call hcall e he
    have hnumbered := h.numbered.set hcall (call.pc + 1)
    rw [h.schema_eq] at he hearlier
    obtain ⟨perm, ⟨log, hrun, hlog⟩, hordered, -⟩ := h
    obtain ⟨before, behind, hcalls, htake, hset⟩ := exists_split hcall
    rw [htake] at hearlier
    rw [hcalls] at perm hlog hordered
    rw [hset] at hnumbered ⊢
    refine ⟨?_, ⟨log ++ [e], ?_, fun c => ?_⟩, hordered.advance he hearlier, hnumbered⟩
    · simpa using perm
    · rw [run_append_of_ok _ hrun, run_singleton, hr]
    · rw [← hordered.proj_taken he, proj_append, proj_append, hlog]

theorem Tracked.step (h : Tracked t disk n rows s) (hsep : t.Separate) (hn : t.nextRid = .ok n)
    (choice : Choice) (hguard : Orderly s choice) (hstep : step s choice = .ok s') :
    Tracked t disk n rows s' := by
  cases choice with
  | start i => exact h.start hsep hn hguard hstep
  | advance k => exact h.advance hguard hstep

/-- When all calls have returned, the calls in the order of their row numbers are a run of
`insert_row`. -/
theorem Tracked.run_calls (h : Tracked t disk n rows s) (hsep : t.Separate) (hn : t.nextRid = .ok n)
    (hrest : ∀ call ∈ s.calls, call.rest s.table.schema = []) :
    run insertStep (t, disk) (s.calls.map Call.row) = .ok (s.table, s.disk) := by
  rw [h.schema_eq] at hrest
  obtain ⟨log, hrun, hlog⟩ := h.log
  have htaken : s.calls.flatMap (Call.taken t.schema) = s.calls.flatMap (Call.events t.schema) := by
    refine List.flatMap_congr fun call hcall => ?_
    rw [← call.taken_append_rest t.schema, hrest call hcall, List.append_nil]
  rw [htaken] at hlog
  exact run_insertStep_of_numbered hsep hn h.numbered (independent_eventStep.run_eq hsep hrun hlog)

theorem Tracked.serialisable (h : Tracked t disk n rows s) (hsep : t.Separate)
    (hn : t.nextRid = .ok n) (hreturned : s.Returned) : Serialisable t disk rows s := by
  obtain ⟨hwaiting, hrest⟩ := hreturned
  exact ⟨s.calls.map Call.row, by simpa [hwaiting] using h.perm, h.run_calls hsep hn hrest⟩

/-- Along every run in which the calls keep their order, each state is tracked. -/
theorem tracked_of_run {choices : List Choice} (hsep : t.Separate) (hn : t.nextRid = .ok n)
    (hguard : Guarded step Orderly ⟨t, disk, rows, []⟩ choices)
    (hrun : run step ⟨t, disk, rows, []⟩ choices = .ok s) : Tracked t disk n rows s := by
  have hstep : ∀ (past : List Choice) s choice, Tracked t disk n rows s → Orderly s choice →
      (∃ s', step s choice = .ok s' ∧ Tracked t disk n rows s') ∨
        ∃ f, step s choice = .error f ∧ True := by
    intro _ s choice h hchoice
    cases hs : step s choice with
    | error f => exact Or.inr ⟨f, rfl, trivial⟩
    | ok s' => exact Or.inl ⟨s', rfl, h.step hsep hn choice hchoice hs⟩
  rcases hguard.run_ok_or hstep [] (tracked_init t disk n rows) with ⟨s', hs', h⟩ | ⟨f, hf, -⟩
  · rw [hrun] at hs'
    cases hs'
    exact h
  · rw [hrun] at hf
    cases hf

/-- Calls of `insert_row` on a table whose columns have files of their own, in any interleaving in
which no call overtakes an earlier one. -/
theorem serialisable_of_orderly (t : Table) (disk : Disk) (rows : List Row) (choices : List Choice)
    (s : Inserting) (hsound : t.Sound) (hfiles : (t.columns.map ColumnStore.filePath).Nodup)
    (hguard : Guarded step Orderly ⟨t, disk, rows, []⟩ choices)
    (hrun : run step ⟨t, disk, rows, []⟩ choices = .ok s) (hreturned : s.Returned) :
    Serialisable t disk rows s := by
  have hsep : t.Separate := ⟨hsound.inUse, hfiles⟩
  obtain ⟨n, hn⟩ := hsound.nextRid
  exact (tracked_of_run hsep hn hguard hrun).serialisable hsep hn hreturned

/-! ## Two clients -/

/-- A table with the columns `ID` and `V`. -/
def tableIdV : Except Fault Table :=
  Table.init (str "data") (str "T") [⟨str "ID", .decimal⟩, ⟨str "V", .decimal⟩] .blank

/-- The rows `(1, 10)` and `(2, 20)`. -/
def twoRows : List Row :=
  [⟨[⟨.decimal, 1, []⟩, ⟨.decimal, 10, []⟩]⟩, ⟨[⟨.decimal, 2, []⟩, ⟨.decimal, 20, []⟩]⟩]

/-- What a table keeps for a row, as numbers. -/
def storedRow (r : Table × Disk) (rid : ℕ) : Except Fault (List (Option ℕ)) := do
  let id ← r.1.readAt r.2 0 rid 8
  let v ← r.1.readAt r.2 1 rid 8
  return [id.map ByteMemory.decode, v.map ByteMemory.decode]

/-- The second client begins when the first has appended to `ID`, and catches up with it. -/
theorem serialisable_two_clients :
    ∃ t s, tableIdV = .ok t ∧
      run step ⟨t, .blank, twoRows, []⟩ [.start 0, .advance 0, .start 0, .advance 1, .advance 0,
        .advance 0, .advance 1, .advance 1] = .ok s ∧ s.Returned ∧
      Serialisable t .blank twoRows s := by
  have hend : (do
      let t ← tableIdV
      let s ← run step ⟨t, .blank, twoRows, []⟩ [.start 0, .advance 0, .start 0, .advance 1,
        .advance 0, .advance 0, .advance 1, .advance 1]
      return (decide (t.columns.map ColumnStore.filePath).Nodup,
        decide (Guarded step Orderly ⟨t, .blank, twoRows, []⟩ [.start 0, .advance 0, .start 0,
          .advance 1, .advance 0, .advance 0, .advance 1, .advance 1]),
        decide s.Returned)) = .ok (true, true, true) := by decide +kernel
  obtain ⟨t, ht, hend⟩ := bind_eq_ok hend
  obtain ⟨s, hs, hend⟩ := bind_eq_ok hend
  simp only [Pure.pure, Except.pure, Except.ok.injEq, Prod.mk.injEq, decide_eq_true_eq] at hend
  obtain ⟨hfiles, hguard, hreturned⟩ := hend
  exact ⟨t, s, ht, hs, hreturned, serialisable_of_orderly t .blank twoRows _ s
    (init_sound _ _ ht) hfiles hguard hs hreturned⟩

/-- The second client overtakes the first at the column `V`: the rows have each other's values. -/
theorem not_serialisable_two_clients :
    ∃ t s, tableIdV = .ok t ∧
      run step ⟨t, .blank, twoRows, []⟩ [.start 0, .advance 0, .start 0, .advance 1, .advance 1,
        .advance 0, .advance 0, .advance 1] = .ok s ∧ s.Returned ∧
      storedRow (s.table, s.disk) 0 = .ok [some 1, some 20] ∧
      storedRow (s.table, s.disk) 1 = .ok [some 2, some 10] ∧
      ¬ Serialisable t .blank twoRows s := by
  have hend : (do
      let t ← tableIdV
      let s ← run step ⟨t, .blank, twoRows, []⟩ [.start 0, .advance 0, .start 0, .advance 1,
        .advance 1, .advance 0, .advance 0, .advance 1]
      return (decide s.Returned, storedRow (s.table, s.disk) 0, storedRow (s.table, s.disk) 1)) =
      .ok (true, .ok [some 1, some 20], .ok [some 2, some 10]) := by decide +kernel
  obtain ⟨t, ht, hend⟩ := bind_eq_ok hend
  obtain ⟨s, hs, hend⟩ := bind_eq_ok hend
  simp only [Pure.pure, Except.pure, Except.ok.injEq, Prod.mk.injEq, decide_eq_true_eq] at hend
  obtain ⟨hreturned, hzero, hone⟩ := hend
  refine ⟨t, s, ht, hs, hreturned, hzero, hone, ?_⟩
  rintro ⟨rows, hperm, hrun⟩
  -- One client after the other, the row of `ID` 1 keeps its value.
  have hserial : ∀ rows ∈ [twoRows, twoRows.reverse], (do
      let t ← tableIdV
      let r ← run insertStep (t, .blank) rows
      storedRow r 0) ≠ .ok [some 1, some 20] := by decide +kernel
  apply hserial rows (by simpa [twoRows] using List.perm_pair.mp hperm)
  rw [ht]
  simp only [Bind.bind, Except.bind, hrun]
  exact hzero

end FlexQL.Server
