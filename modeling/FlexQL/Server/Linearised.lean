import FlexQL.Executor.Database
import FlexQL.Server.InsertOrder
import FlexQL.Server.SharedExecutor
import FlexQL.Server.SingleWorker

/-!
# Insertions of the workers, one after the other

As long as no insertion overtakes an earlier one on its table, rows go into the shared executor as if one
came after the other, in the order in which their insertions have begun.
-/

namespace FlexQL.SharedExecutor

open Text Runs Traces Fallible Executor Server
open Wire (Reply)

variable {p : Platform} {s s' : SharedExecutor} {w : ℕ}

theorem proj_fst_self {α β : Type*} [DecidableEq α] (a : α) (b : β) (l : List (α × β)) :
    proj Prod.fst a ((a, b) :: l) = (a, b) :: proj Prod.fst a l := proj_cons_of_eq rfl l

theorem proj_fst_of_ne {α β : Type*} [DecidableEq α] {a c : α} {b : β} {l : List (α × β)} (h : a ≠ c) :
    proj Prod.fst c ((a, b) :: l) = proj Prod.fst c l := proj_cons_of_ne h l

/-! ## The calls on the tables -/

section Calls

variable {q u : Inserts} {name : Text} {k : ℕ} {t : Table}

/-- A call that takes a step leaves the rows and the other calls alone, and the steps do not depend on the
rows that wait. -/
structure Advances (q u : Inserts) (name : Text) (k : ℕ) : Prop where
  schema : ∀ name', (u.executor.tables name').map Table.schema = (q.executor.tables name').map Table.schema
  rows : ∀ name', u.rowsOf name' = q.rowsOf name'
  other : ∀ name' k', (name', k') ≠ (name, k) → (u.calls name')[k']? = (q.calls name')[k']?
  waiting : ∀ waiting, Inserts.step { q with waiting := waiting } (name, .advance k) =
    .ok { u with waiting := waiting }

theorem Advances.of_same (h : ∀ waiting, Inserts.step { q with waiting := waiting } (name, .advance k) =
    .ok { q with waiting := waiting }) : Advances q q name k :=
  ⟨fun _ => rfl, fun _ => rfl, fun _ _ _ => rfl, h⟩

theorem advances_of_step (h : Inserts.step q (name, .advance k) = .ok u) : Advances q u name k := by
  cases ht : q.executor.tables name with
  | none =>
    obtain rfl := Except.ok.inj ((Inserts.step_of_none ht _).symm.trans h)
    exact .of_same fun waiting => Inserts.step_of_none (s := { q with waiting := waiting }) ht _
  | some t =>
    have hsame : ∀ waiting, ({ q with waiting := waiting } : Inserts).setPart name
        (({ q with waiting := waiting } : Inserts).part name t) = { q with waiting := waiting } := fun waiting =>
      Inserts.setPart_part (s := { q with waiting := waiting }) ht
    have hstep : ∀ waiting, Inserts.step { q with waiting := waiting } (name, .advance k) =
        (Server.advance (({ q with waiting := waiting } : Inserts).part name t) k).map
          (({ q with waiting := waiting } : Inserts).setPart name) := fun waiting =>
      Inserts.step_of_some (s := { q with waiting := waiting }) ht _
    cases hcall : (q.calls name)[k]? with
    | none =>
      have hidle : ∀ waiting, Inserts.step { q with waiting := waiting } (name, .advance k) =
          .ok { q with waiting := waiting } := by
        intro waiting
        rw [hstep]
        simp only [Server.advance, Inserts.part, hcall, Except.map]
        exact congrArg Except.ok (hsame waiting)
      obtain rfl := Except.ok.inj ((hidle q.waiting).symm.trans h)
      exact .of_same hidle
    | some call =>
      cases hhead : (call.rest t.schema).head? with
      | none =>
        have hidle : ∀ waiting, Inserts.step { q with waiting := waiting } (name, .advance k) =
            .ok { q with waiting := waiting } := by
          intro waiting
          rw [hstep]
          simp only [Server.advance, Inserts.part, hcall, hhead, Except.map]
          exact congrArg Except.ok (hsame waiting)
        obtain rfl := Except.ok.inj ((hidle q.waiting).symm.trans h)
        exact .of_same hidle
      | some e =>
        have hnext : ∀ waiting, Inserts.step { q with waiting := waiting } (name, .advance k) =
            (Table.eventStep (t, q.executor.disk) e).map fun r => {
              executor := q.executor.setTable name r.1 r.2
              waiting := waiting
              calls := Function.update q.calls name ((q.calls name).set k { call with pc := call.pc + 1 }) } := by
          intro waiting
          rw [hstep]
          simp only [Server.advance, Inserts.part, hcall, hhead]
          cases Table.eventStep (t, q.executor.disk) e with
          | error f => rfl
          | ok r => simp only [Bind.bind, Except.bind, Pure.pure, Except.pure, Except.map, Inserts.setPart,
              Function.update_eq_self]
        obtain ⟨r, hr, rfl⟩ := map_eq_ok ((hnext q.waiting).symm.trans h)
        refine ⟨fun name' => ?_, fun name' => ?_, fun name' k' hne => ?_, fun waiting => ?_⟩
        · by_cases hname : name' = name
          · subst hname
            dsimp only
            rw [Executor.setTable_same, ht, Option.map_some, Option.map_some, Table.eventStep_schema hr]
          · dsimp only
            rw [Executor.setTable_ne _ _ _ hname]
        · by_cases hname : name' = name
          · subst hname
            obtain ⟨hk, rfl⟩ := List.getElem?_eq_some_iff.mp hcall
            simp only [Inserts.rowsOf, Function.update_self, List.map_set]
            exact List.ext_getElem? fun j => by grind
          · simp only [Inserts.rowsOf, Function.update_of_ne hname]
        · by_cases hname : name' = name
          · subst hname
            have hk : k ≠ k' := fun hk => hne (by rw [hk])
            simp only [Function.update_self, List.getElem?_set_ne hk]
          · simp only [Function.update_of_ne hname]
        · rw [hnext, hr]
          rfl

/-- A row that waits in front begins. -/
theorem step_start {row : Row} {rid : ℕ} {waiting : Text → List Row} (ht : q.executor.tables name = some t)
    (hrid : t.nextRid = .ok rid) (hwaiting : q.waiting name = row :: waiting name)
    (hothers : ∀ name', name' ≠ name → q.waiting name' = waiting name') :
    Inserts.step q (name, .start 0) = .ok ⟨q.executor, waiting,
      Function.update q.calls name (q.calls name ++ [⟨row, rid, 0⟩])⟩ := by
  have htables : Function.update q.executor.tables name (some t) = q.executor.tables := by
    rw [← ht, Function.update_eq_self]
  have hlater : Function.update q.waiting name (waiting name) = waiting := by
    funext name'
    by_cases hname : name' = name
    · subst hname
      rw [Function.update_self]
    · rw [Function.update_of_ne hname, hothers name' hname]
  rw [Inserts.step_of_some ht]
  simp only [Server.step, Server.start, Inserts.part, hwaiting, hrid, List.getElem?_cons_zero, List.eraseIdx_cons_zero,
    Bind.bind, Except.bind, Pure.pure, Except.pure, Except.map, Inserts.setPart, Executor.setTable, htables, hlater]

end Calls

/-! ## The invariant -/

/-- The rows that a statement is to insert. -/
def asked (p : Platform) (e : Executor) (sql : Text) : List (Text × Row) :=
  let stmt := (Parser.parse sql).insertStmt
  if (Parser.parse sql).type = .insert then
    match e.tables (upper stmt.tableName) with
    | none => []
    | some t => (readTuples p t.schema (tuples stmt.rawValues)).1.map (Prod.mk (upper stmt.tableName))
  else []

/-- The rows of the statements that were answered on a connection. -/
def answeredRows (p : Platform) (e : Executor) (s : SharedExecutor) (i : ℕ) : List (Text × Row) :=
  (proj Prod.fst i s.serving.log).flatMap fun x => asked p e x.2.1

/-- The rows whose insertion has begun on a connection. -/
def begunOn (s : SharedExecutor) (i : ℕ) : List (Text × Row) := (proj Prod.fst i s.begun).map Prod.snd

/-- All rows whose insertion has begun. -/
def begunRows (s : SharedExecutor) : List (Text × Row) := s.begun.map Prod.snd

/-- A worker has begun the first rows of its statement. -/
structure Inserting (p : Platform) (e : Executor) (s : SharedExecutor) (i : ℕ) (sql : Text)
    (x : Insertion) : Prop where
  rows : ∃ t rows, e.tables x.tableName = some t ∧ s.begunOn i = answeredRows p e s i ++ rows ∧
    asked p e sql = rows ++ (readTuples p t.schema x.tuples).1.map (Prod.mk x.tableName)
  call : ∀ k ∈ x.call, ∃ row, (i, x.tableName, row) ∈ s.begun

structure Sound (p : Platform) (e : Executor) (n : ℕ) (s : SharedExecutor) : Prop where
  serving : s.serving.Sound n
  schema : ∀ name, (s.executor.tables name).map Table.schema = (e.tables name).map Table.schema
  rows : ∀ name, s.inserts.rowsOf name = proj Prod.fst name s.begunRows
  /-- The steps so far, with any rows that still wait. -/
  steps : ∃ choices, ∀ more, Guarded Inserts.step Inserts.Orderly (.start e (s.begunRows ++ more)) choices ∧
    run Inserts.step (.start e (s.begunRows ++ more)) choices =
      .ok { s.inserts with waiting := (Inserts.start e more).waiting }
  /-- A call that has not returned has its worker. -/
  owned : ∀ name t k call, s.executor.tables name = some t → (s.calls name)[k]? = some call →
    call.rest t.schema ≠ [] → ∃ w x, s.insertions w = some x ∧ x.tableName = name ∧ x.call = some k
  inserting : ∀ w x, s.insertions w = some x → ∃ i sql, statement s.serving w = some (i, sql) ∧
    Inserting p e s i sql x
  settled : ∀ i, (∀ w x sql, s.insertions w = some x → statement s.serving w ≠ some (i, sql)) →
    s.begunOn i = answeredRows p e s i

variable {e : Executor} {n : ℕ}

theorem init_sound (p : Platform) (numThreads hardware : ℕ) (e : Executor) :
    Sound p e (ThreadPool.threadCount numThreads hardware) (init numThreads hardware e) where
  serving := Serving.init_sound numThreads hardware
  schema := fun _ => rfl
  rows := fun _ => rfl
  steps := ⟨[], fun _ => ⟨trivial, rfl⟩⟩
  owned := by simp [init]
  inserting := by simp [init]
  settled := fun _ _ => rfl

theorem Sound.exists_table (h : Sound p e n s) {name : Text} {t : Table} (ht : s.executor.tables name = some t) :
    ∃ u, e.tables name = some u ∧ u.schema = t.schema := by
  have hschema := h.schema name
  rw [ht, Option.map_some] at hschema
  obtain ⟨u, hu, heq⟩ := Option.map_eq_some_iff.mp hschema.symm
  exact ⟨u, hu, heq⟩

theorem Sound.tables_eq_none (h : Sound p e n s) {name : Text} (ht : s.executor.tables name = none) :
    e.tables name = none := by
  have hschema := h.schema name
  rw [ht, Option.map_none] at hschema
  exact Option.map_eq_none_iff.mp hschema.symm

/-- What happens beside the executor. -/
theorem Sound.serve (h : Sound p e n s) (hn : n < 2 ^ 64) {ev : Serving.Event} {serving : Serving}
    (hexec : ∀ w reply, ev ≠ .work w (.exec reply)) (hstep : Serving.step s.serving ev = .ok serving) :
    Sound p e n { s with serving := serving } := by
  have hlog := Serving.log_of_step hexec hstep
  have hasked : ∀ i, answeredRows p e { s with serving := serving } i = answeredRows p e s i := by
    intro i
    rw [answeredRows, answeredRows, hlog]
  have hkeep : ∀ w i sql, statement s.serving w = some (i, sql) → statement serving w = some (i, sql) :=
    fun w _ _ => statement_of_step h.serving (hexec w) hstep
  refine ⟨h.serving.step hn hstep, h.schema, h.rows, h.steps, h.owned, fun w x hx => ?_, fun i hi => ?_⟩
  · obtain ⟨i, sql, hsql, ⟨t, rows, ht, hbegun, hrest⟩, hcall⟩ := h.inserting w x hx
    exact ⟨i, sql, hkeep w i sql hsql, ⟨t, rows, ht, by rw [hasked]; exact hbegun, hrest⟩, hcall⟩
  · rw [hasked]
    exact h.settled i fun w x sql hx hsql => hi w x sql hx (hkeep w i sql hsql)

/-- A worker is done with a statement whose rows have all begun. -/
theorem Sound.answer (h : Sound p e n s) (hn : n < 2 ^ 64) {i : ℕ} {sql : Text} {reply : Reply} {serving : Serving}
    (hsql : statement s.serving w = some (i, sql)) (hbegun : s.begunOn i = answeredRows p e s i ++ asked p e sql)
    (howned : ∀ x ∈ s.insertions w, s.Settled x)
    (hstep : Serving.step s.serving (.work w (.exec reply)) = .ok serving) :
    Sound p e n { s with
      serving := serving
      insertions := Function.update s.insertions w none } := by
  obtain ⟨reply', hlog⟩ := log_of_exec hstep hsql
  have hkeep : ∀ w' j sql', w' ≠ w → statement s.serving w' = some (j, sql') →
      statement serving w' = some (j, sql') ∧ j ≠ i := by
    intro w' j sql' hne hsql'
    refine ⟨statement_of_step h.serving ?_ hstep hsql', ?_⟩
    · rintro reply'' heq
      cases heq
      exact hne rfl
    · rintro rfl
      exact hne (statement_unique h.serving hsql' hsql)
  have hself : answeredRows p e { s with serving := serving } i =
      answeredRows p e s i ++ asked p e sql := by
    simp only [answeredRows, hlog, proj_append, List.flatMap_append, proj_cons_of_eq, proj_nil, List.flatMap_singleton]
  have hother : ∀ j, j ≠ i → answeredRows p e { s with serving := serving } j =
      answeredRows p e s j := by
    intro j hj
    simp only [answeredRows, hlog, proj_append, proj_fst_of_ne hj.symm,
      proj_nil, List.append_nil]
  refine ⟨h.serving.step hn hstep, h.schema, h.rows, h.steps, fun name t k call ht hk hrest => ?_,
    fun w' x hx => ?_, fun j hj => ?_⟩
  · obtain ⟨w', x, hx, hname, hcall⟩ := h.owned name t k call ht hk hrest
    have hne : w' ≠ w := by
      rintro rfl
      exact hrest (howned x hx k hcall t (hname ▸ ht) call (hname ▸ hk))
    exact ⟨w', x, (Function.update_of_ne hne _ _).trans hx, hname, hcall⟩
  · have hne : w' ≠ w := by
      rintro rfl
      cases (Function.update_self w' none s.insertions).symm.trans hx
    obtain ⟨j, sql', hsql', ⟨t, rows, ht, hrows, hrest⟩, hcall⟩ :=
      h.inserting w' x ((Function.update_of_ne hne none s.insertions).symm.trans hx)
    obtain ⟨hkept, hj⟩ := hkeep w' j sql' hne hsql'
    exact ⟨j, sql', hkept, ⟨t, rows, ht, hrows.trans (congrArg (· ++ rows) (hother j hj).symm), hrest⟩, hcall⟩
  · by_cases hi : j = i
    · subst hi
      exact hbegun.trans hself.symm
    · refine Eq.trans ?_ (hother j hi).symm
      refine h.settled j fun w' x sql' hx hsql' => ?_
      have hne : w' ≠ w := by
        rintro rfl
        rw [hsql] at hsql'
        cases hsql'
        exact hi rfl
      exact hj w' x sql' ((Function.update_of_ne hne _ _).trans hx) (hkeep w' j sql' hne hsql').1

/-- All rows of a connection have begun, if its worker is not inserting. -/
theorem Sound.begunOn_of_idle (h : Sound p e n s) {i : ℕ} {sql : Text}
    (hsql : statement s.serving w = some (i, sql)) (hidle : s.insertions w = none) :
    s.begunOn i = answeredRows p e s i := by
  refine h.settled i fun w' x sql' hx hsql' => ?_
  obtain rfl := statement_unique h.serving hsql hsql'
  cases hidle.symm.trans hx

theorem Sound.refuse (h : Sound p e n s) (hn : n < 2 ^ 64) {i : ℕ} {sql : Text} {reply : Reply} {serving : Serving}
    (hsql : statement s.serving w = some (i, sql)) (hidle : s.insertions w = none)
    (hnone : (Parser.parse sql).type = .insert →
      s.executor.tables (upper (Parser.parse sql).insertStmt.tableName) = none)
    (hstep : Serving.step s.serving (.work w (.exec reply)) = .ok serving) :
    Sound p e n { s with
      serving := serving
      insertions := Function.update s.insertions w none } := by
  have hasked : asked p e sql = [] := by
    by_cases htype : (Parser.parse sql).type = .insert
    · simp only [asked, htype, h.tables_eq_none (hnone htype), if_true]
    · simp only [asked, htype, if_false]
  refine h.answer hn hsql ?_ (by simp [hidle]) hstep
  rw [hasked, List.append_nil]
  exact h.begunOn_of_idle hsql hidle

theorem Sound.leave (h : Sound p e n s) (hn : n < 2 ^ 64) {name : Text} {call : Option ℕ} {serving : Serving}
    (hx : s.insertions w = some ⟨name, [], call⟩) (hsettled : s.Settled ⟨name, [], call⟩)
    (hstep : Serving.step s.serving (.work w (.exec {})) = .ok serving) :
    Sound p e n { s with
      serving := serving
      insertions := Function.update s.insertions w none } := by
  obtain ⟨i, sql, hsql, ⟨t, rows, -, hbegun, hrest⟩, -⟩ := h.inserting w _ hx
  refine h.answer hn hsql ?_ ?_ hstep
  · rw [hbegun, hrest]
    simp [readTuples]
  · intro x hx'
    rw [hx] at hx'
    cases hx'
    exact hsettled

/-- A worker begins to execute a statement with rows. -/
theorem Sound.enter (h : Sound p e n s) {i : ℕ} {sql : Text} {t : Table}
    (hsql : statement s.serving w = some (i, sql)) (hidle : s.insertions w = none)
    (htype : (Parser.parse sql).type = .insert)
    (ht : s.executor.tables (upper (Parser.parse sql).insertStmt.tableName) = some t) :
    Sound p e n (s.setInsertion w (some
      ⟨upper (Parser.parse sql).insertStmt.tableName, tuples (Parser.parse sql).insertStmt.rawValues, none⟩)) := by
  obtain ⟨u, hu, -⟩ := h.exists_table ht
  refine ⟨h.serving, h.schema, h.rows, h.steps, fun name t k call ht hk hrest => ?_, fun w' x hx => ?_,
    fun j hj => ?_⟩
  · obtain ⟨w', x, hx, hname, hcall⟩ := h.owned name t k call ht hk hrest
    have hne : w' ≠ w := by
      rintro rfl
      cases hidle.symm.trans hx
    exact ⟨w', x, (Function.update_of_ne hne _ _).trans hx, hname, hcall⟩
  · by_cases hne : w' = w
    · subst hne
      cases (Function.update_self ..).symm.trans hx
      refine ⟨i, sql, hsql, ⟨u, [], hu, ?_, ?_⟩, by simp⟩
      · rw [List.append_nil]
        exact h.begunOn_of_idle hsql hidle
      · simp only [asked, htype, hu, if_true, List.nil_append]
    · obtain ⟨j, sql', hsql', ⟨t', rows, ht', hrows, hrest⟩, hcall⟩ :=
        h.inserting w' x ((Function.update_of_ne hne _ _).symm.trans hx)
      exact ⟨j, sql', hsql', ⟨t', rows, ht', hrows, hrest⟩, hcall⟩
  · refine h.settled j fun w' x sql' hx hsql' => ?_
    have hne : w' ≠ w := by
      rintro rfl
      cases hidle.symm.trans hx
    exact hj w' x sql' ((Function.update_of_ne hne _ _).trans hx) hsql'

theorem Sound.advance (h : Sound p e n s) {name : Text} {ts : List Text} {k : ℕ} {q : Inserts}
    (hx : s.insertions w = some ⟨name, ts, some k⟩)
    (hguard : s.inserts.Orderly (name, .advance k)) (hq : Inserts.step s.inserts (name, .advance k) = .ok q) :
    Sound p e n { s with executor := q.executor, calls := q.calls } := by
  have hadv := advances_of_step hq
  refine ⟨h.serving, fun name' => (hadv.schema name').trans (h.schema name'),
    fun name' => (hadv.rows name').trans (h.rows name'), ?_, fun name' t k' call ht hk hrest => ?_,
    fun w' x hx' => ?_, h.settled⟩
  · obtain ⟨choices, hchoices⟩ := h.steps
    refine ⟨choices ++ [(name, .advance k)], fun more => ?_⟩
    obtain ⟨hguards, hrun⟩ := hchoices more
    refine ⟨hguards.concat hrun hguard, (run_append_of_ok _ hrun).trans ?_⟩
    rw [run_singleton]
    exact hadv.waiting _
  · by_cases hsame : (name', k') = (name, k)
    · cases hsame
      exact ⟨w, _, hx, rfl, rfl⟩
    · have hold := hadv.schema name'
      dsimp only at ht hk
      rw [ht, Option.map_some] at hold
      obtain ⟨t', ht', hschema⟩ := Option.map_eq_some_iff.mp hold.symm
      rw [hadv.other name' k' hsame] at hk
      rw [← hschema] at hrest
      exact h.owned name' t' k' call ht' hk hrest
  · obtain ⟨i, sql, hsql, ⟨t, rows, ht, hrows, hrest⟩, hcall⟩ := h.inserting w' x hx'
    exact ⟨i, sql, hsql, ⟨t, rows, ht, hrows, hrest⟩, hcall⟩

/-! ### A row that begins -/

theorem begunOn_concat_self (i : ℕ) (r : Text × Row) :
    begunOn { s with begun := s.begun ++ [(i, r)] } i = s.begunOn i ++ [r] := by
  rw [begunOn, proj_append, List.map_append, proj_fst_self]
  rfl

theorem begunOn_concat_of_ne {i j : ℕ} (h : i ≠ j) (r : Text × Row) :
    begunOn { s with begun := s.begun ++ [(i, r)] } j = s.begunOn j := by
  rw [begunOn, proj_append, proj_fst_of_ne h, proj_nil, List.append_nil]
  rfl

theorem rowsOf_concat {q : Inserts} {name : Text} {row : Row} {rid : ℕ} (name' : Text) :
    ({ q with calls := Function.update q.calls name (q.calls name ++ [⟨row, rid, 0⟩]) } : Inserts).rowsOf name' =
      q.rowsOf name' ++ proj Prod.fst name' [(name, row)] := by
  by_cases hname : name = name'
  · subst hname
    rw [proj_fst_self]
    simp [Inserts.rowsOf]
  · rw [proj_fst_of_ne hname, proj_nil, List.append_nil]
    simp only [Inserts.rowsOf, Function.update_of_ne (Ne.symm hname)]

section Begin

variable {i rid : ℕ} {sql name tuple : Text} {ts : List Text} {call : Option ℕ} {t : Table} {row : Row}

/-- The steps so far and the one with which the row begins. -/
theorem Sound.steps_concat (h : Sound p e n s) (row : Row) (ht : s.executor.tables name = some t)
    (hrid : t.nextRid = .ok rid) (hguard : s.inserts.Orderly (name, .start 0)) : ∃ choices, ∀ more,
      Guarded Inserts.step Inserts.Orderly (.start e (s.begunRows ++ (name, row) :: more)) choices ∧
        run Inserts.step (.start e (s.begunRows ++ (name, row) :: more)) choices =
          .ok ⟨s.executor, (Inserts.start e more).waiting,
            Function.update s.calls name (s.calls name ++ [⟨row, rid, 0⟩])⟩ := by
  obtain ⟨choices, hchoices⟩ := h.steps
  refine ⟨choices ++ [(name, .start 0)], fun more => ?_⟩
  obtain ⟨hguards, hrun⟩ := hchoices ((name, row) :: more)
  refine ⟨hguards.concat hrun hguard, ?_⟩
  rw [run_append_of_ok _ hrun, run_singleton]
  refine step_start ht hrid ?_ fun name' hname => ?_
  · simp [Inserts.start, proj_fst_self]
  · simp only [Inserts.start, proj_fst_of_ne (Ne.symm hname)]

/-- The call of the row belongs to the worker, whose call before it has returned. -/
theorem Sound.owned_concat (h : Sound p e n s) (hx : s.insertions w = some ⟨name, tuple :: ts, call⟩)
    (ht : s.executor.tables name = some t) (hsettled : s.Settled ⟨name, tuple :: ts, call⟩)
    {name' : Text} {t' : Table} {k : ℕ} {c : Call} (ht' : s.executor.tables name' = some t')
    (hk : (Function.update s.calls name (s.calls name ++ [⟨row, rid, 0⟩]) name')[k]? = some c)
    (hrest : c.rest t'.schema ≠ []) : ∃ w' x,
      Function.update s.insertions w (some ⟨name, ts, some (s.calls name).length⟩) w' = some x ∧
        x.tableName = name' ∧ x.call = some k := by
  by_cases hnew : name' = name ∧ k = (s.calls name).length
  · obtain ⟨rfl, rfl⟩ := hnew
    exact ⟨w, _, Function.update_self .., rfl, rfl⟩
  · have hold : (s.calls name')[k]? = some c := by
      by_cases hname : name' = name
      · subst hname
        rw [Function.update_self, List.getElem?_append] at hk
        split at hk
        · exact hk
        · rename_i hlt
          have hlength := (List.getElem?_eq_some_iff.mp hk).1
          rw [List.length_singleton] at hlength
          exact absurd ⟨rfl, by omega⟩ hnew
      · rwa [Function.update_of_ne hname] at hk
    obtain ⟨w', x, hx', hname, hcall⟩ := h.owned name' t' k c ht' hold hrest
    have hne : w' ≠ w := by
      rintro rfl
      cases hx.symm.trans hx'
      cases hname
      exact hrest (hsettled k hcall t' ht' c hold)
    exact ⟨w', x, (Function.update_of_ne hne _ _).trans hx', hname, hcall⟩

theorem Sound.insertRow (h : Sound p e n s) (hsql : statement s.serving w = some (i, sql))
    (hx : s.insertions w = some ⟨name, tuple :: ts, call⟩) (ht : s.executor.tables name = some t)
    (hsettled : s.Settled ⟨name, tuple :: ts, call⟩) (hrow : parseTuple p t.schema tuple = .ok (.ok row))
    (hrid : t.nextRid = .ok rid) (hguard : s.inserts.Orderly (name, .start 0)) :
    Sound p e n { s with
      calls := Function.update s.calls name (s.calls name ++ [⟨row, rid, 0⟩])
      insertions := Function.update s.insertions w (some ⟨name, ts, some (s.calls name).length⟩)
      begun := s.begun ++ [(i, name, row)] } := by
  have hrows : ∀ more, (s.begun ++ [(i, name, row)]).map Prod.snd ++ more = s.begunRows ++ (name, row) :: more := by
    intro more
    simp [begunRows]
  refine ⟨h.serving, h.schema, fun name' => ?_, ?_, fun name' t' k c ht' hk hrest =>
    h.owned_concat hx ht hsettled ht' hk hrest, fun w' x hx' => ?_, fun j hj => ?_⟩
  · refine (rowsOf_concat (q := s.inserts) name').trans ?_
    rw [h.rows, ← proj_append]
    exact congrArg _ (by simp [begunRows])
  · obtain ⟨choices, hchoices⟩ := h.steps_concat row ht hrid hguard
    refine ⟨choices, fun more => ?_⟩
    have hmore := hchoices more
    rw [← hrows] at hmore
    exact hmore
  · by_cases hne : w' = w
    · subst hne
      cases (Function.update_self ..).symm.trans hx'
      obtain ⟨j, sql', hsql', ⟨u, rows, hu, hbegun, hrest⟩, -⟩ := h.inserting w' _ hx
      obtain ⟨rfl, rfl⟩ := Prod.mk.inj (Option.some.inj (hsql'.symm.trans hsql))
      obtain ⟨u', hu', hschema⟩ := h.exists_table ht
      dsimp only at hu hrest
      obtain rfl := Option.some.inj (hu.symm.trans hu')
      refine ⟨j, sql', hsql, ⟨u, rows ++ [(name, row)], hu, ?_, ?_⟩,
        fun _ _ => ⟨row, List.mem_append_right _ List.mem_cons_self⟩⟩
      · refine (begunOn_concat_self j (name, row)).trans ?_
        rw [hbegun, List.append_assoc]
        rfl
      · rw [hrest, readTuples, hschema, hrow]
        simp
    · obtain ⟨j, sql', hsql', ⟨u, rows, hu, hbegun, hrest⟩, hcall⟩ :=
        h.inserting w' x ((Function.update_of_ne hne _ _).symm.trans hx')
      have hj : i ≠ j := by
        rintro rfl
        exact hne (statement_unique h.serving hsql' hsql)
      exact ⟨j, sql', hsql', ⟨u, rows, hu, (begunOn_concat_of_ne hj (name, row)).trans hbegun, hrest⟩,
        fun k hk => (hcall k hk).imp fun _ => List.mem_append_left _⟩
  · have hj' : i ≠ j := by
      rintro rfl
      exact hj w _ sql (Function.update_self ..) hsql
    refine (begunOn_concat_of_ne hj' (name, row)).trans (h.settled j fun w' x sql' hx' hsql' => ?_)
    have hne : w' ≠ w := by
      rintro rfl
      cases hsql.symm.trans hsql'
      exact hj' rfl
    exact hj w' x sql' ((Function.update_of_ne hne _ _).trans hx') hsql'

end Begin

theorem Sound.step (h : Sound p e n s) (hn : n < 2 ^ 64) {ev : Event} (hguard : s.Orderly ev)
    (hstep : step p s ev = .ok s') : Sound p e n s' := by
  cases steps_of_step hstep with
  | serving hexec hserving => exact h.serve hn hexec hserving
  | refuse hsql hidle hnone hserving => exact h.refuse hn hsql hidle hnone hserving
  | enter hsql hidle htype ht => exact h.enter hsql hidle htype ht
  | insertRow hsql hx ht hsettled hrow hrid => exact h.insertRow hsql hx ht hsettled hrow hrid (hguard _ hx)
  | advance hx hq => exact h.advance hx (hguard _ hx _ rfl) hq
  | leave hx hsettled hserving => exact h.leave hn hx hsettled hserving

/-! ## All runs -/

/-- No worker is inside `exec_insert`. -/
def Quiet (s : SharedExecutor) : Prop := ∀ w, s.insertions w = none

/-- The rows went in one after the other, in the order in which they have begun, and each connection has
the rows of its own statements there, in their order. -/
structure Linearised (p : Platform) (e : Executor) (s : SharedExecutor) : Prop where
  serial : run Inserts.insertAt e s.begunRows = .ok s.executor
  own : ∀ i peer, s.serving.peers[i]? = some peer → s.begunOn i = peer.answered.flatMap fun x => asked p e x.1

theorem Sound.begunOn_of_quiet (h : Sound p e n s) (hquiet : s.Quiet) (i : ℕ) :
    s.begunOn i = answeredRows p e s i :=
  h.settled i fun w _ _ hx => absurd ((hquiet w).symm.trans hx) (by simp)

theorem Sound.linearised (h : Sound p e n s) (hapart : Apart e) (hquiet : s.Quiet) : Linearised p e s where
  serial := by
    obtain ⟨choices, hchoices⟩ := h.steps
    obtain ⟨hguard, hrun⟩ := hchoices []
    rw [List.append_nil] at hguard hrun
    refine Inserts.run_insertAt_of_orderly hapart hguard hrun (fun name => ?_) fun name => (h.rows name).symm
    refine ⟨rfl, fun t ht => ⟨rfl, fun call hcall => ?_⟩⟩
    obtain ⟨k, hk⟩ := List.mem_iff_getElem?.mp hcall
    by_contra hrest
    obtain ⟨w, x, hx, -⟩ := h.owned name t k call ht hk hrest
    cases (hquiet w).symm.trans hx
  own := by
    intro i peer hpeer
    rw [h.begunOn_of_quiet hquiet, answeredRows, ← (h.serving.peers i peer hpeer).log, List.flatMap_map]

/-- What is answered has begun. -/
theorem Sound.answered_begun (h : Sound p e n s) (i : ℕ) : answeredRows p e s i <+: s.begunOn i := by
  by_cases hi : ∀ w x sql, s.insertions w = some x → statement s.serving w ≠ some (i, sql)
  · exact ⟨[], by rw [List.append_nil, h.settled i hi]⟩
  · push Not at hi
    obtain ⟨w, x, sql, hx, hsql⟩ := hi
    obtain ⟨j, sql', hsql', ⟨t, rows, -, hbegun, -⟩, -⟩ := h.inserting w x hx
    rw [hsql] at hsql'
    cases hsql'
    exact ⟨rows, hbegun.symm⟩

theorem begun_grows {events : List Event} (hrun : run (step p) s events = .ok s') : s.begun <+: s'.begun := by
  refine run_induction (fun u => s.begun <+: u.begun) (fun u ev u' hu hstep => hu.trans ?_) (List.prefix_refl _) hrun
  cases steps_of_step hstep with
  | insertRow => exact List.prefix_append _ _
  | _ => exact List.prefix_refl _

/-- What holds in every state of a server whose workers insert at the same time. -/
structure Serves (p : Platform) (e : Executor) (n : ℕ) (s : SharedExecutor) : Prop where
  serving : s.serving.Serves n
  /-- The rows of what has been answered have begun, and rows that begin later come behind them. -/
  answered : ∀ i, answeredRows p e s i <+: s.begunOn i
  later : ∀ events s', run (step p) s events = .ok s' → s.begun <+: s'.begun
  quiet : s.Quiet → Linearised p e s

theorem Sound.serves (h : Sound p e n s) (hapart : Apart e) : Serves p e n s :=
  ⟨h.serving.serves, h.answered_begun, fun _ _ => begun_grows, h.linearised hapart⟩

theorem sound_of_run {numThreads hardware : ℕ} (hn : ThreadPool.threadCount numThreads hardware < 2 ^ 64)
    {events : List Event} (hguard : Guarded (SharedExecutor.step p) Orderly (init numThreads hardware e) events)
    (hrun : run (SharedExecutor.step p) (init numThreads hardware e) events = .ok s) :
    Sound p e (ThreadPool.threadCount numThreads hardware) s :=
  hguard.run_induction (fun _ s => Sound p e (ThreadPool.threadCount numThreads hardware) s)
    (fun _ _ _ _ h hguard hstep => h.step hn hguard hstep) (init_sound p numThreads hardware e) hrun

/-- Two clients of one table. The second begins when the first has stored one value, and the first has
another row for it. -/
def oneTable : List Event :=
  [.serving .accept, .serving .accept, .serving (.wake 0), .serving (.wake 1),
    .serving (.arrive 0 (str "INSERT INTO T VALUES (1,10),(3,30);")),
    .serving (.arrive 1 (str "INSERT INTO T VALUES (2,20);")), .serving (.work 0 (.recv 35)),
    .serving (.work 1 (.recv 28)), .execute 0, .execute 1, .insertRow 0, .advance 0, .insertRow 1, .advance 0,
    .advance 1, .advance 0, .advance 1, .advance 1, .insertRow 0, .leave 1, .advance 0, .advance 0, .advance 0,
    .leave 0]

end FlexQL.SharedExecutor
