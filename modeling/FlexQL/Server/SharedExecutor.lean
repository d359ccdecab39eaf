import FlexQL.Server.ConcurrentTables
import FlexQL.Server.Serving

/-!
# Workers in one executor

Any number of workers are inside `exec_insert` at the same time: each takes the tuples of its statement one
after the other, and the steps of `insert_row` for them interleave with those of the other workers. Here are
the steps of the whole server, as long as its clients only insert.
-/

namespace FlexQL

open Text Runs Traces Fallible Executor Server
open Wire (Reply)

/-- What a worker inside `exec_insert` has still to do. -/
structure Insertion where
  tableName : Text
  /-- The tuples behind the one that is being inserted. -/
  tuples : List Text
  /-- Its call of `insert_row`, among the calls on the table. -/
  call : Option ℕ
  deriving DecidableEq, Repr

structure SharedExecutor where
  serving : Serving
  executor : Executor
  /-- The calls of `insert_row` on each table, in the order in which they have read their row numbers. -/
  calls : Text → List Call
  insertions : ℕ → Option Insertion
  /-- The rows whose insertion has begun, each with the connection that it came on. -/
  begun : List (ℕ × Text × Row)

namespace SharedExecutor

inductive Stop
  | blocked
  | fault (f : Fault)
  /-- Nobody catches an exception of the executor. -/
  | thrown (exn : Exn)
  deriving DecidableEq, Repr

inductive Event
  /-- Anything but the execution of a statement. -/
  | serving (ev : Serving.Event)
  /-- A worker begins to execute the next statement, and is done if no row is to be inserted. -/
  | execute (w : ℕ)
  /-- A worker reads the next tuple, and the number for its row. -/
  | insertRow (w : ℕ)
  | advance (w : ℕ)
  /-- A worker has inserted all tuples. -/
  | leave (w : ℕ)
  deriving DecidableEq, Repr

def init (numThreads hardware : ℕ) (e : Executor) : SharedExecutor :=
  ⟨.init numThreads hardware, e, fun _ => [], fun _ => none, []⟩

/-- The calls and their tables. -/
def inserts (s : SharedExecutor) : Inserts := ⟨s.executor, fun _ => [], s.calls⟩

/-- The statement that a worker has in front, and its connection. -/
def statement (s : Serving) (w : ℕ) : Option (ℕ × Text) :=
  (s.connection w).bind fun x =>
    if x.2.sending = [] then (cut (ch ';') x.2.accumulator).map fun y => (x.1, y.1) else none

def setInsertion (s : SharedExecutor) (w : ℕ) (x : Option Insertion) : SharedExecutor :=
  { s with insertions := Function.update s.insertions w x }

def serve (s : SharedExecutor) (ev : Serving.Event) : Except Stop SharedExecutor :=
  match Serving.step s.serving ev with
  | .error _ => .error .blocked
  | .ok serving => .ok { s with serving := serving }

/-- A statement has been executed. -/
def answer (s : SharedExecutor) (w : ℕ) (reply : Reply) : Except Stop SharedExecutor :=
  (s.setInsertion w none).serve (.work w (.exec reply))

def execute (s : SharedExecutor) (w : ℕ) : Except Stop SharedExecutor :=
  match statement s.serving w, s.insertions w with
  | some (_, sql), none =>
    let stmt := Parser.parse sql
    match stmt.type with
    | .none => s.answer w {}
    | .insert =>
      match s.executor.getTable stmt.insertStmt.tableName with
      | .error err => s.answer w { err := err }
      | .ok _ => .ok (s.setInsertion w
          (some ⟨upper stmt.insertStmt.tableName, tuples stmt.insertStmt.rawValues, none⟩))
    | _ => .error .blocked
  | _, _ => .error .blocked

/-- The last row is in the table. -/
def Settled (s : SharedExecutor) (x : Insertion) : Prop :=
  ∀ k ∈ x.call, ∀ t ∈ s.executor.tables x.tableName, ∀ call ∈ (s.calls x.tableName)[k]?, call.rest t.schema = []

instance (s : SharedExecutor) (x : Insertion) : Decidable (s.Settled x) :=
  inferInstanceAs (Decidable (∀ k ∈ x.call, ∀ t ∈ s.executor.tables x.tableName,
    ∀ call ∈ (s.calls x.tableName)[k]?, call.rest t.schema = []))

/-- The number of a row is read, and its call begins. -/
def beginRow (s : SharedExecutor) (w i : ℕ) (name : Text) (tuples : List Text) (t : Table) (row : Row) :
    Except Stop SharedExecutor :=
  match t.nextRid with
  | .error f => .error (.fault f)
  | .ok rid => .ok { s with
      calls := Function.update s.calls name (s.calls name ++ [⟨row, rid, 0⟩])
      insertions := Function.update s.insertions w (some ⟨name, tuples, some (s.calls name).length⟩)
      begun := s.begun ++ [(i, name, row)] }

def insertRow (p : Platform) (s : SharedExecutor) (w : ℕ) : Except Stop SharedExecutor :=
  match statement s.serving w, s.insertions w with
  | some (i, _), some ⟨name, tuple :: tuples, call⟩ =>
    match s.executor.tables name with
    | none => .error .blocked
    | some t =>
      if s.Settled ⟨name, tuple :: tuples, call⟩ then
        match parseTuple p t.schema tuple with
        | .error f => .error (.fault f)
        | .ok (.error exn) => .error (.thrown exn)
        | .ok (.ok row) => s.beginRow w i name tuples t row
      else .error .blocked
  | _, _ => .error .blocked

def advance (s : SharedExecutor) (w : ℕ) : Except Stop SharedExecutor :=
  match s.insertions w with
  | some ⟨name, _, some k⟩ =>
    match Inserts.step s.inserts (name, .advance k) with
    | .error f => .error (.fault f)
    | .ok q => .ok { s with executor := q.executor, calls := q.calls }
  | _ => .error .blocked

def leave (s : SharedExecutor) (w : ℕ) : Except Stop SharedExecutor :=
  match s.insertions w with
  | some ⟨name, [], call⟩ => if s.Settled ⟨name, [], call⟩ then s.answer w {} else .error .blocked
  | _ => .error .blocked

def step (p : Platform) (s : SharedExecutor) : Event → Except Stop SharedExecutor
  | .serving (.work _ (.exec _)) => .error .blocked
  | .serving ev => s.serve ev
  | .execute w => s.execute w
  | .insertRow w => s.insertRow p w
  | .advance w => s.advance w
  | .leave w => s.leave w

/-- No call overtakes an earlier one on its own table. -/
def Orderly (s : SharedExecutor) : Event → Prop
  | .insertRow w => ∀ x ∈ s.insertions w, s.inserts.Orderly (x.tableName, .start 0)
  | .advance w => ∀ x ∈ s.insertions w, ∀ k ∈ x.call, s.inserts.Orderly (x.tableName, .advance k)
  | _ => True

instance (s : SharedExecutor) : ∀ ev, Decidable (s.Orderly ev)
  | .serving _ => isTrue trivial
  | .execute _ => isTrue trivial
  | .insertRow w => inferInstanceAs (Decidable (∀ x ∈ s.insertions w, s.inserts.Orderly (x.tableName, .start 0)))
  | .advance w => inferInstanceAs
      (Decidable (∀ x ∈ s.insertions w, ∀ k ∈ x.call, s.inserts.Orderly (x.tableName, .advance k)))
  | .leave _ => isTrue trivial

/-! ## What a step does -/

variable {p : Platform} {s s' : SharedExecutor} {w : ℕ}

theorem serve_eq_ok {ev : Serving.Event} (h : s.serve ev = .ok s') :
    ∃ serving, Serving.step s.serving ev = .ok serving ∧ s' = { s with serving := serving } := by
  unfold serve at h
  split at h
  · cases h
  · rename_i serving hserving
    exact ⟨serving, hserving, (Except.ok.inj h).symm⟩

/-- What can happen. -/
inductive Steps (p : Platform) : SharedExecutor → Event → SharedExecutor → Prop
  | serving {s : SharedExecutor} {ev : Serving.Event} {serving : Serving}
    (hexec : ∀ w reply, ev ≠ .work w (.exec reply)) (hstep : Serving.step s.serving ev = .ok serving) :
    Steps p s (.serving ev) { s with serving := serving }
  /-- A statement without rows. -/
  | refuse {s : SharedExecutor} {w i : ℕ} {sql : Text} {reply : Reply} {serving : Serving}
    (hsql : statement s.serving w = some (i, sql)) (hidle : s.insertions w = none)
    (hnone : (Parser.parse sql).type = .insert →
      s.executor.tables (upper (Parser.parse sql).insertStmt.tableName) = none)
    (hstep : Serving.step s.serving (.work w (.exec reply)) = .ok serving) :
    Steps p s (.execute w) { s with
      serving := serving
      insertions := Function.update s.insertions w none }
  | enter {s : SharedExecutor} {w i : ℕ} {sql : Text} {t : Table}
    (hsql : statement s.serving w = some (i, sql)) (hidle : s.insertions w = none)
    (htype : (Parser.parse sql).type = .insert)
    (ht : s.executor.tables (upper (Parser.parse sql).insertStmt.tableName) = some t) :
    Steps p s (.execute w) (s.setInsertion w
      (some ⟨upper (Parser.parse sql).insertStmt.tableName, tuples (Parser.parse sql).insertStmt.rawValues, none⟩))
  | insertRow {s : SharedExecutor} {w i : ℕ} {sql name tuple : Text} {ts : List Text} {call : Option ℕ}
    {t : Table} {row : Row} {rid : ℕ}
    (hsql : statement s.serving w = some (i, sql)) (hx : s.insertions w = some ⟨name, tuple :: ts, call⟩)
    (ht : s.executor.tables name = some t) (hsettled : s.Settled ⟨name, tuple :: ts, call⟩)
    (hrow : parseTuple p t.schema tuple = .ok (.ok row)) (hrid : t.nextRid = .ok rid) :
    Steps p s (.insertRow w) { s with
      calls := Function.update s.calls name (s.calls name ++ [⟨row, rid, 0⟩])
      insertions := Function.update s.insertions w (some ⟨name, ts, some (s.calls name).length⟩)
      begun := s.begun ++ [(i, name, row)] }
  | advance {s : SharedExecutor} {w k : ℕ} {name : Text} {ts : List Text} {q : Inserts}
    (hx : s.insertions w = some ⟨name, ts, some k⟩) (hq : Inserts.step s.inserts (name, .advance k) = .ok q) :
    Steps p s (.advance w) { s with executor := q.executor, calls := q.calls }
  | leave {s : SharedExecutor} {w : ℕ} {name : Text} {call : Option ℕ} {serving : Serving}
    (hx : s.insertions w = some ⟨name, [], call⟩) (hsettled : s.Settled ⟨name, [], call⟩)
    (hstep : Serving.step s.serving (.work w (.exec {})) = .ok serving) :
    Steps p s (.leave w) { s with
      serving := serving
      insertions := Function.update s.insertions w none }

theorem steps_of_execute (h : s.execute w = .ok s') : Steps p s (.execute w) s' := by
  unfold execute at h
  split at h
  · rename_i i sql hsql hidle
    dsimp only at h
    split at h
    · rename_i htype
      obtain ⟨serving, hserving, rfl⟩ := serve_eq_ok h
      exact .refuse hsql hidle (fun hinsert => absurd (htype.symm.trans hinsert) (by decide)) hserving
    · rename_i htype
      split at h
      · rename_i err herr
        obtain ⟨serving, hserving, rfl⟩ := serve_eq_ok h
        refine .refuse hsql hidle (fun _ => ?_) hserving
        unfold getTable at herr
        split at herr
        · assumption
        · cases herr
      · rename_i t ht
        cases h
        exact .enter hsql hidle htype (getTable_eq_ok.mp ht)
    · cases h
  · cases h

theorem steps_of_insertRow (h : s.insertRow p w = .ok s') : Steps p s (.insertRow w) s' := by
  unfold insertRow at h
  split at h
  · rename_i i sql name tuple ts call hsql hx
    split at h
    · cases h
    · rename_i t ht
      split at h
      · rename_i hsettled
        split at h
        · cases h
        · cases h
        · rename_i row hrow
          unfold beginRow at h
          split at h
          · cases h
          · rename_i rid hrid
            cases h
            exact .insertRow hsql hx ht hsettled hrow hrid
      · cases h
  · cases h

theorem steps_of_step {ev : Event} (h : step p s ev = .ok s') : Steps p s ev s' := by
  cases ev with
  | serving ev =>
    by_cases hexec : ∃ w reply, ev = .work w (.exec reply)
    · obtain ⟨w, reply, rfl⟩ := hexec
      cases h
    · have hother : ∀ w reply, ev ≠ .work w (.exec reply) := fun w reply heq => hexec ⟨w, reply, heq⟩
      have hserve : step p s (.serving ev) = s.serve ev := by
        cases ev with
        | work w a =>
          cases a with
          | exec reply => exact absurd rfl (hother w reply)
          | _ => rfl
        | _ => rfl
      obtain ⟨serving, hserving, rfl⟩ := serve_eq_ok (hserve.symm.trans h)
      exact .serving hother hserving
  | execute w => exact steps_of_execute h
  | insertRow w => exact steps_of_insertRow h
  | advance w =>
    change s.advance w = .ok s' at h
    unfold advance at h
    split at h
    · rename_i name ts k hx
      split at h
      · cases h
      · rename_i q hq
        cases h
        exact .advance hx hq
    · cases h
  | leave w =>
    change s.leave w = .ok s' at h
    unfold leave at h
    split at h
    · rename_i name call hx
      split at h
      · rename_i hsettled
        obtain ⟨serving, hserving, rfl⟩ := serve_eq_ok h
        exact .leave hx hsettled hserving
      · cases h
    · cases h

/-! ## The statements of the workers -/

section Statements

variable {v v' : Serving} {n i : ℕ} {sql : Text}

theorem statement_eq_some : statement v w = some (i, sql) ↔ ∃ peer rest,
    v.pool.1.workers[w]? = some (.running i) ∧ v.peers[i]? = some peer ∧ peer.sending = [] ∧
      cut (ch ';') peer.accumulator = some (sql, rest) := by
  constructor
  · intro h
    obtain ⟨⟨j, peer⟩, hconn, h⟩ := Option.bind_eq_some_iff.mp h
    obtain ⟨hw, hpeer⟩ := Serving.connection_eq_some.mp hconn
    dsimp only at h
    split at h
    · rename_i hsending
      obtain ⟨⟨sql', rest⟩, hcut, heq⟩ := Option.map_eq_some_iff.mp h
      cases heq
      exact ⟨peer, rest, hw, hpeer, hsending, hcut⟩
    · cases h
  · rintro ⟨peer, rest, hw, hpeer, hsending, hcut⟩
    simp only [statement, Serving.connection_eq_some.mpr ⟨hw, hpeer⟩, Option.bind_some, hsending, hcut, if_true,
      Option.map_some]

/-- No connection has two workers. -/
theorem running_unique (h : v.Sound n) {w' : ℕ} (hw : v.pool.1.workers[w]? = some (.running i))
    (hw' : v.pool.1.workers[w']? = some (.running i)) : w = w' := by
  have hnodup : (v.pool.1.workers.filterMap Worker.task).Nodup := (List.nodup_append.mp h.once).1
  have hne := List.pairwise_iff_getElem.mp (List.pairwise_filterMap.mp hnodup)
  obtain ⟨hlt, hget⟩ := List.getElem?_eq_some_iff.mp hw
  obtain ⟨hlt', hget'⟩ := List.getElem?_eq_some_iff.mp hw'
  rcases Nat.lt_trichotomy w w' with hlt'' | rfl | hlt''
  · exact absurd rfl (hne w w' hlt hlt' hlt'' i (by rw [hget]; rfl) i (by rw [hget']; rfl))
  · rfl
  · exact absurd rfl (hne w' w hlt' hlt hlt'' i (by rw [hget']; rfl) i (by rw [hget]; rfl))

theorem statement_unique (h : v.Sound n) {w' : ℕ} {sql' : Text} (hsql : statement v w = some (i, sql))
    (hsql' : statement v w' = some (i, sql')) : w = w' := by
  obtain ⟨-, -, hw, -⟩ := statement_eq_some.mp hsql
  obtain ⟨-, -, hw', -⟩ := statement_eq_some.mp hsql'
  exact running_unique h hw hw'

/-- A statement stays in front of its worker until it has been executed. -/
theorem statement_of_step (h : v.Sound n) {ev : Serving.Event} (hexec : ∀ reply, ev ≠ .work w (.exec reply))
    (hstep : Serving.step v ev = .ok v') (hsql : statement v w = some (i, sql)) :
    statement v' w = some (i, sql) := by
  obtain ⟨peer, rest, hw, hpeer, hsending, hcut⟩ := statement_eq_some.mp hsql
  have hlt := (List.getElem?_eq_some_iff.mp hpeer).1
  have hbusy : ¬ peer.Idle := by
    intro hidle
    rw [cut_eq_none.mpr hidle.2] at hcut
    cases hcut
  cases Serving.steps_of_step hstep with
  | accept hpool =>
    obtain ⟨⟨pool, history⟩, peers, log⟩ := v
    cases hpool
    exact statement_eq_some.mpr ⟨peer, rest, hw, (List.getElem?_append_left hlt).trans hpeer, hsending, hcut⟩
  | @arrive j peer' bytes hpeer' =>
    by_cases hj : j = i
    · subst hj
      obtain rfl := Option.some.inj (hpeer.symm.trans hpeer')
      exact statement_eq_some.mpr ⟨_, rest, hw, List.getElem?_set_self hlt, hsending, hcut⟩
    · exact statement_eq_some.mpr ⟨peer, rest, hw, (List.getElem?_set_ne hj).trans hpeer, hsending, hcut⟩
  | @wake w' pool hpool =>
    have hother : ∀ x, v.pool.1.workers[w']? = some .waiting →
        (v.pool.1.workers.set w' x)[w]? = some (.running i) := by
      intro x hwaiting
      have hne : w' ≠ w := by
        rintro rfl
        rw [hw] at hwaiting
        cases hwaiting
      rw [List.getElem?_set_ne hne, hw]
    obtain ⟨⟨pool, history⟩, peers, log⟩ := v
    cases hpool with
    | start _ hwaiting hqueue => exact statement_eq_some.mpr ⟨peer, rest, hother _ hwaiting, hpeer, hsending, hcut⟩
    | exit _ hwaiting hqueue hstop =>
      exact statement_eq_some.mpr ⟨peer, rest, hother _ hwaiting, hpeer, hsending, hcut⟩
  | @work w' j peer' peer'' a hw' hpeer' hpeer'' =>
    by_cases hj : j = i
    · subst hj
      obtain rfl := running_unique h hw hw'
      obtain rfl := Option.some.inj (hpeer.symm.trans hpeer')
      cases a with
      | recv m => exact absurd (Peer.step_recv hpeer'').1 hbusy
      | exec reply => exact absurd rfl (hexec reply)
      | send m =>
        rw [Peer.step, if_neg (by rw [hsending, List.length_nil]; omega)] at hpeer''
        cases hpeer''
    · exact statement_eq_some.mpr ⟨peer, rest, hw, (List.getElem?_set_ne hj).trans hpeer, hsending, hcut⟩
  | @hangUp w' j peer' pool hw' hpeer' hidle hpool =>
    have hne : w' ≠ w := by
      rintro rfl
      rw [hw] at hw'
      cases hw'
      obtain rfl := Option.some.inj (hpeer.symm.trans hpeer')
      exact hbusy hidle
    obtain ⟨⟨pool, history⟩, peers, log⟩ := v
    cases hpool
    exact statement_eq_some.mpr ⟨peer, rest, (List.getElem?_set_ne hne).trans hw, hpeer, hsending, hcut⟩

/-- The statement that is executed comes into the log. -/
theorem log_of_exec {reply : Reply} (hstep : Serving.step v (.work w (.exec reply)) = .ok v')
    (hsql : statement v w = some (i, sql)) : ∃ reply', v'.log = v.log ++ [(i, sql, reply')] := by
  obtain ⟨peer, rest, hw, hpeer, hsending, hcut⟩ := statement_eq_some.mp hsql
  cases Serving.steps_of_step hstep with
  | @work _ j peer' peer'' _ hw' hpeer' hpeer'' =>
    rw [hw] at hw'
    cases hw'
    obtain rfl := Option.some.inj (hpeer.symm.trans hpeer')
    exact ⟨Peer.replyTo sql reply, by simp [Peer.executed, hcut]⟩

end Statements

end SharedExecutor

end FlexQL
