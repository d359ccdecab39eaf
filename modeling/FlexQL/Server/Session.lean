import FlexQL.Executor.Refinement
import FlexQL.Server.Delivery

/-!
# Sessions

A client calls `flexql_exec` over a connection, and the executor stands behind it. The calls hand to
their callbacks what the database permits for the statements that were sent, in their order, however
the bytes were cut on their way.
-/

namespace FlexQL.Wire

open Text Runs Executor

/-- The executor of the server does what `Executor::exec` does, as long as that returns. -/
def Behaves (p : Platform) (exec : Executor → Statement → Executor × Reply) : Prop :=
  ∀ e s e' code err rows, Executor.exec p e s = .ok (e', ⟨.returned code err, rows⟩) →
    exec e s = (e', ⟨rows, err.getD []⟩)

/-- The replies to a statement that the database permits. -/
inductive Replies (p : Platform) (db : Database) (s : Statement) : Reply → Prop
  | invalid (htype : s.type = .none) : Replies p db s { err := str "Invalid SQL" }
  | executed {code : ℕ} {err : Option Text} {rows : List (List Text)} (htype : s.type ≠ .none)
      (h : db.Permits p s ⟨.returned code err, rows⟩) : Replies p db s ⟨rows, err.getD []⟩

/-- A statement that the executor takes without an exception, and to which every reply can be sent. -/
structure Servable (p : Platform) (db : Database) (s : Statement) : Prop where
  proper : db.Proper s
  returns : ∀ exn rows, ¬ db.Permits p s ⟨.thrown exn, rows⟩
  sendable : ∀ reply, Replies p db s reply → Sendable reply

/-- The statements that the calls have sent. -/
def sent (events : List Event) : List Statement := ((requests events).flatMap statements).map Parser.parse

variable {p : Platform} {exec : Executor → Statement → Executor × Reply} {e : Executor} {db : Database}
  {s : Statement} {sqls : List Text} {sql : Text}

theorem sendable_rows {rows : List (List Text)} (h : ∀ row ∈ rows, RoundTrips row) : Sendable ⟨rows, []⟩ :=
  ⟨h, by simp, rfl⟩

theorem Servable.of_create (h : db.Proper s) (htype : s.type = .create) : Servable p db s := by
  constructor
  · exact h
  · intro exn rows hpermits
    cases hpermits with
    | insertThrown htype' => simp [htype] at htype'
  · intro reply hreplies
    cases hreplies with
    | invalid htype' => simp [htype] at htype'
    | executed _ hpermits =>
      cases hpermits with
      | unnamed => exact ⟨by simp, by decide, by decide⟩
      | created => exact sendable_rows (by simp)
      | _ htype' => simp [htype] at htype'

theorem Servable.of_insert (h : db.Proper s) (htype : s.type = .insert) {r : Relation}
    (hr : db.find s.insertStmt.tableName = .ok r)
    (hall : (readTuples p r.schema (tuples s.insertStmt.rawValues)).2 = none) : Servable p db s := by
  constructor
  · exact h
  · intro exn rows hpermits
    cases hpermits with
    | insertThrown _ hr' hexn =>
      obtain rfl := Except.ok.inj (hr.symm.trans hr')
      simp [hall] at hexn
  · intro reply hreplies
    cases hreplies with
    | invalid htype' => simp [htype] at htype'
    | executed _ hpermits =>
      cases hpermits with
      | insertRefused _ hr' => simp [hr] at hr'
      | inserted => exact sendable_rows (by simp)
      | _ htype' => simp [htype] at htype'

theorem Servable.of_select (h : db.Proper s) (htype : s.type = .select) {schema : Schema} {source : List Row}
    (hs : db.source s.selectStmt = .ok (schema, source))
    (hrows : ∀ emitted, Answers schema s.selectStmt source emitted → ∀ row ∈ emitted, RoundTrips row) :
    Servable p db s := by
  constructor
  · exact h
  · intro exn rows hpermits
    cases hpermits with
    | insertThrown htype' => simp [htype] at htype'
  · intro reply hreplies
    cases hreplies with
    | invalid htype' => simp [htype] at htype'
    | executed _ hpermits =>
      cases hpermits with
      | selectRefused _ hs' => simp [hs] at hs'
      | selected _ hs' hanswers =>
        cases hs.symm.trans hs'
        exact sendable_rows (hrows _ hanswers)
      | _ htype' => simp [htype] at htype'

/-! ## Statements one after the other -/

theorem respond_represents (hexec : Behaves p exec) (h : Represents p e db)
    (hs : Servable p db (Parser.parse sql)) :
    Replies p db (Parser.parse sql) (answerTo exec e sql) ∧
      Represents p (respond exec e sql).1 ((Database.spec p).next db (Parser.parse sql)) := by
  obtain ⟨e', o, hok, hrepresents, hpermits⟩ := exec_simulates p e db (Parser.parse sql) h hs.proper
  obtain ⟨result, rows⟩ := o
  cases result with
  | thrown exn => exact absurd hpermits (hs.returns exn rows)
  | returned code err =>
    have hreturned := hexec e _ e' code err rows hok
    by_cases htype : (Parser.parse sql).type = .none
    · have hnext : (Database.spec p).next db (Parser.parse sql) = db := by
        simp only [Database.spec, Database.next, htype]
      simp only [answerTo, respond, htype, if_true]
      rw [hnext]
      exact ⟨.invalid htype, h⟩
    · simp only [answerTo, respond, htype, if_false, hreturned]
      exact ⟨.executed htype hpermits, hrepresents⟩

theorem serve_represents (hexec : Behaves p exec) (h : Represents p e db)
    (hs : (Database.spec p).Meets (Servable p) db (sqls.map Parser.parse)) :
    Represents p (serve exec e sqls).1 ((Database.spec p).after db (sqls.map Parser.parse)) := by
  induction sqls generalizing e db with
  | nil => exact h
  | cons sql sqls ih => exact ih (respond_represents hexec h hs.1).2 hs.2

/-- The reply to a statement behind others. -/
theorem replies_serve (hexec : Behaves p exec) (h : Represents p e db) {before behind : List Text}
    (hs : (Database.spec p).Meets (Servable p) db ((before ++ sql :: behind).map Parser.parse)) :
    Replies p ((Database.spec p).after db (before.map Parser.parse)) (Parser.parse sql)
        (answerTo exec (serve exec e before).1 sql) ∧
      Sendable (answerTo exec (serve exec e before).1 sql) := by
  rw [List.map_append, List.map_cons] at hs
  obtain ⟨hbefore, hsql, -⟩ := hs.append
  have hreplies := (respond_represents hexec (serve_represents hexec h hbefore) hsql).1
  exact ⟨hreplies, hsql.sendable _ hreplies⟩

/-! ## An executor with replies that can be sent -/

open Classical in
/-- The executor, where it has a reply that can be sent. The argument about the order of the responses
is one about executors that always have. -/
noncomputable def sanitised (exec : Executor → Statement → Executor × Reply) (e : Executor) (s : Statement) :
    Executor × Reply :=
  if Sendable (exec e s).2 then exec e s else (e, {})

theorem clean_sanitised (exec : Executor → Statement → Executor × Reply) : Clean (sanitised exec) := by
  constructor
  · intro e s
    unfold sanitised
    split
    · rename_i h
      exact h.rows_no_newline
    · simp
  · intro e s
    unfold sanitised
    split
    · rename_i h
      exact h.err
    · simp

theorem respond_sanitised (h : Sendable (answerTo exec e sql)) :
    respond (sanitised exec) e sql = respond exec e sql := by
  unfold respond
  by_cases htype : (Parser.parse sql).type = .none
  · simp only [htype, if_true]
  · simp only [answerTo, htype, if_false] at h
    simp only [htype, if_false, sanitised, if_pos h]

theorem answerTo_sanitised (h : Sendable (answerTo exec e sql)) :
    answerTo (sanitised exec) e sql = answerTo exec e sql := by
  unfold answerTo at h ⊢
  by_cases htype : (Parser.parse sql).type = .none
  · simp only [htype, if_true]
  · simp only [htype, if_false] at h ⊢
    rw [sanitised, if_pos h]

theorem serve_sanitised (hexec : Behaves p exec) (h : Represents p e db)
    (hs : (Database.spec p).Meets (Servable p) db (sqls.map Parser.parse)) :
    serve (sanitised exec) e sqls = serve exec e sqls := by
  induction sqls generalizing e db with
  | nil => rfl
  | cons sql sqls ih =>
    obtain ⟨hreplies, hrepresents⟩ := respond_represents hexec h hs.1
    simp only [serve, respond_sanitised (hs.1.sendable _ hreplies), ih hrepresents hs.2]

/-- A step asks the executor for no more than the reply to the next statement. -/
theorem step_congr {exec' : Executor → Statement → Executor × Reply} {c : Conn Executor} {ev : Event}
    (h : ∀ sql rest, ev = .serverExec → cut (ch ';') c.serverAccumulator = some (sql, rest) →
      respond exec' c.db sql = respond exec c.db sql) : step exec' c ev = step exec c ev := by
  cases ev with
  | serverExec =>
    simp only [step]
    split
    · rfl
    · rename_i sql rest hcut
      rw [h sql rest rfl hcut]
  | _ => rfl

theorem sent_append (events more : List Event) : sent (events ++ more) = sent events ++ sent more := by
  simp [sent, requests]

/-- The connection does not notice the difference. -/
theorem run_sanitised (hexec : Behaves p exec) (h : Represents p e db) {events : List Event}
    (hs : (Database.spec p).Meets (Servable p) db (sent events)) :
    run (step (sanitised exec)) (Conn.init e) events = run (step exec) (Conn.init e) events := by
  induction events using List.reverseRecOn with
  | nil => rfl
  | append_singleton events ev ih =>
    rw [sent_append] at hs
    have hpast := ih hs.append.1
    cases hrun : run (step exec) (Conn.init e) events with
    | error err =>
      rw [run_append_of_error _ hrun, run_append_of_error _ (hpast.trans hrun)]
    | ok c =>
      have hrun' := hpast.trans hrun
      rw [run_append_of_ok _ hrun, run_append_of_ok _ hrun', run_singleton, run_singleton]
      refine step_congr fun sql rest _ hcut => respond_sanitised ?_
      obtain ⟨done, hpaired⟩ := paired_of_run (clean_sanitised exec) hrun'
      obtain ⟨rest', hdone, hrest⟩ := hpaired.done_prefix
      -- the statement in the accumulator is the next one of those that were sent
      obtain ⟨hacc, hsql⟩ := cut_eq_some.mp hcut
      have hnext : terminated [sql] ++ (rest ++ c.up) = terminated rest' := by
        rw [← hrest, hacc]
        simp [terminated]
      have hunsplit : ∀ sql' ∈ rest', ch ';' ∉ sql' := by
        intro sql' hmem
        have hall : sql' ∈ (requests events).flatMap statements := by
          rw [hdone]
          exact List.mem_append_right _ hmem
        obtain ⟨q, -, hq⟩ := List.mem_flatMap.mp hall
        exact not_mem_statements hq
      obtain ⟨behind, rfl, -⟩ := of_terminated (List.forall_mem_singleton.mpr hsql) hunsplit hnext
      rw [List.singleton_append] at hdone
      have hpastProper := hs.append.1
      rw [sent, hdone] at hpastProper
      rw [hpaired.db_eq, serve_sanitised hexec h (by rw [List.map_append] at hpastProper; exact hpastProper.append.1)]
      exact (replies_serve hexec h hpastProper).2

/-- What the calls of a session get. -/
structure Answered (p : Platform) (exec : Executor → Statement → Executor × Reply) (events : List Event)
    (c : Conn Executor) : Prop where
  /-- The calls that have returned delivered what the database permits, one statement after the other. -/
  delivers : ∀ (i : ℕ) k, c.returned[i]? = some k → ∃ stmt reply, (sent events)[i]? = some stmt ∧
    Replies p ((Database.spec p).after .empty ((sent events).take i)) stmt reply ∧ Delivers k reply
  /-- The executor stands for the database behind these statements, and perhaps some more of them. -/
  represents : ∃ n, c.returned.length ≤ n ∧
    Represents p c.db ((Database.spec p).after .empty ((sent events).take n))
  /-- A running call can be brought to its end. -/
  returns : ∃ more c', (∀ ev ∈ more, ∀ sql, ev ≠ .call sql) ∧ run (step exec) c more = .ok c' ∧ c'.call = none

/-- An executor for a connection. -/
def handler (p : Platform) (e : Executor) (s : Statement) : Executor × Reply :=
  match Executor.exec p e s with
  | .ok (e', ⟨.returned _ err, rows⟩) => (e', ⟨rows, err.getD []⟩)
  | _ => (e, {})

theorem behaves_handler (p : Platform) : Behaves p (handler p) := by
  intro e s e' code err rows h
  simp only [handler, h]

/-- Three calls. The row of the last one arrives in two pieces. -/
def pointQuerySession : List Event :=
  [.call (str "CREATE TABLE T (ID INT, N TEXT)"), .serverRecv 32, .serverExec, .serverSend 4, .clientRecv 4,
    .call (str "INSERT INTO T VALUES (1,'a'),(2,'b')"), .serverRecv 37, .serverExec, .serverSend 4, .clientRecv 4,
    .call (str "SELECT N FROM T WHERE ID = 2"), .serverRecv 29, .serverExec, .serverSend 10, .clientRecv 4,
    .clientRecv 6]

theorem meets_pointQuerySession :
    (Database.spec .reference).Meets (Servable .reference) .empty (sent pointQuerySession) := by
  have hsent : sent pointQuerySession = pointQuery := by decide
  have hsource : Database.source ((Database.spec .reference).after .empty (pointQuery.take 2))
      (Parser.parse (str "SELECT N FROM T WHERE ID = 2")).selectStmt = .ok (twoTexts.schema, twoTexts.rows) := by
    decide
  rw [hsent]
  obtain ⟨hcreate, hinsert, hselect, -⟩ := meets_pointQuery
  refine ⟨.of_create hcreate ?_, .of_insert hinsert ?_ find_created ?_, .of_select hselect ?_ hsource ?_, trivial⟩
  · decide
  · decide
  · decide
  · decide
  · rintro _ ⟨rows, rfl, -, hsame, -⟩
    rw [hsame (by decide)]
    have hrows : (twoTexts.rows.filter fun row =>
        (Parser.parse (str "SELECT N FROM T WHERE ID = 2")).selectStmt.filters.all
          (satisfies twoTexts.schema row)).map (projection twoTexts.schema
            (Parser.parse (str "SELECT N FROM T WHERE ID = 2")).selectStmt.columns) = [[str "b"]] := by decide
    have hrow : RoundTrips [str "b"] := by
      unfold RoundTrips
      decide
    rw [hrows]
    exact List.forall_mem_singleton.mpr hrow

end FlexQL.Wire
