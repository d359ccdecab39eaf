import FlexQL.Server.Serving
import FlexQL.Server.Session

/-!
# A server with one worker

Nobody shares the executor with a single worker. The clients see one database, one client after the
other in the order in which they were accepted: the statements of a client come behind all those of the
clients before it.
-/

namespace FlexQL.Serving

open Text Wire Runs Traces Executor

/-- The texts that were answered on a connection. -/
def texts (peer : Peer) : List Text := peer.answered.map Prod.fst

/-- The texts of the first `i` connections, and the first `k` ones of the connection behind them. -/
def earlier (s : Serving) (i k : ℕ) : List Text :=
  (s.peers.take i).flatMap texts ++ ((s.peers[i]?.map texts).getD []).take k

variable {σ : Type}

/-- A step of the server and of the executor, which is the worker's alone. -/
def stepAlone (exec : σ → Statement → σ × Reply) (s : Serving × σ) : Event → Except Blocked (Serving × σ)
  | .work w (.exec _) =>
    match (s.1.connection w).bind fun x => cut (ch ';') x.2.accumulator with
    | none => .error .blocked
    | some (sql, _) => do
      let s' ← step s.1 (.work w (.exec (answerTo exec s.2 sql)))
      return (s', (respond exec s.2 sql).1)
  | ev => do
    let s' ← step s.1 ev
    return (s', s.2)

/-- Each reply is that of the executor behind what was executed before. -/
structure Follows (exec : σ → Statement → σ × Reply) (db₀ : σ) (s : Serving × σ) : Prop where
  replies : ∀ before i sql reply behind, s.1.log = before ++ (i, sql, reply) :: behind →
    reply = answerTo exec (serve exec db₀ (before.map fun x => x.2.1)).1 sql
  db_eq : s.2 = (serve exec db₀ (s.1.log.map fun x => x.2.1)).1

variable {exec : σ → Statement → σ × Reply} {db₀ : σ} {s : Serving} {st st' : Serving × σ} {ev : Event}

theorem replyTo_answerTo (db : σ) (sql : Text) : Peer.replyTo sql (answerTo exec db sql) = answerTo exec db sql := by
  unfold Peer.replyTo answerTo
  by_cases htype : (Parser.parse sql).type = .none <;> simp only [htype, if_true, if_false]

/-- Only the executor makes the log longer. -/
theorem log_of_step {s' : Serving} (hexec : ∀ w reply, ev ≠ .work w (.exec reply)) (h : step s ev = .ok s') :
    s'.log = s.log := by
  cases steps_of_step h with
  | accept hpool => rfl
  | arrive bytes hpeer => rfl
  | wake hpool => rfl
  | hangUp hw hpeer hidle hpool => rfl
  | @work w i peer peer' a hw hpeer hstep =>
    cases a with
    | recv n => exact List.append_nil _
    | send n => exact List.append_nil _
    | exec reply => exact absurd rfl (hexec w reply)

/-- The executor is asked, or nothing is executed. -/
theorem stepAlone_cases (h : stepAlone exec st ev = .ok st') : (∃ ev', step st.1 ev' = .ok st'.1) ∧
    ((st'.1.log = st.1.log ∧ st'.2 = st.2) ∨ ∃ i sql,
      st'.1.log = st.1.log ++ [(i, sql, answerTo exec st.2 sql)] ∧ st'.2 = (respond exec st.2 sql).1) := by
  by_cases hexec : ∃ w reply, ev = .work w (.exec reply)
  · obtain ⟨w, reply, rfl⟩ := hexec
    rw [stepAlone] at h
    split at h
    · cases h
    · rename_i sql rest hcut
      obtain ⟨s', hs', h⟩ := Fallible.bind_eq_ok h
      cases h
      refine ⟨⟨_, hs'⟩, Or.inr ?_⟩
      obtain ⟨⟨i, peer⟩, hconn, hcut⟩ := Option.bind_eq_some_iff.mp hcut
      cases steps_of_step hs' with
      | @work _ j peer' _ _ hw hpeer hstep =>
        obtain ⟨rfl, rfl⟩ := Prod.mk.inj (Option.some.inj (hconn.symm.trans (connection_eq_some.mpr ⟨hw, hpeer⟩)))
        refine ⟨i, sql, ?_, rfl⟩
        simp only [Peer.executed, hcut, Option.map_some, Option.toList_some, List.map_cons, List.map_nil,
          replyTo_answerTo]
  · have hother : ∀ w reply, ev ≠ .work w (.exec reply) := fun w reply heq => hexec ⟨w, reply, heq⟩
    have hstep : stepAlone exec st ev = (do
        let s' ← step st.1 ev
        return (s', st.2)) := by
      unfold stepAlone
      split
      · exact absurd rfl (hother _ _)
      · rfl
    rw [hstep] at h
    obtain ⟨s', hs', h⟩ := Fallible.bind_eq_ok h
    cases h
    exact ⟨⟨ev, hs'⟩, Or.inl ⟨log_of_step hother hs', rfl⟩⟩

theorem Follows.step (h : Follows exec db₀ st) (hstep : stepAlone exec st ev = .ok st') :
    Follows exec db₀ st' := by
  obtain ⟨-, ⟨hlog, hdb⟩ | ⟨i, sql, hlog, hdb⟩⟩ := stepAlone_cases hstep
  · refine ⟨?_, ?_⟩
    · rw [hlog]
      exact h.replies
    · rw [hlog, hdb]
      exact h.db_eq
  · refine ⟨fun before j sql' reply behind hsplit => ?_, ?_⟩
    · rw [hlog] at hsplit
      rcases List.eq_nil_or_concat behind with rfl | ⟨behind', y, rfl⟩
      · obtain ⟨rfl, hlast⟩ := List.append_inj' hsplit rfl
        cases hlast
        rw [h.db_eq]
      · rw [List.concat_eq_append, ← List.cons_append, ← List.append_assoc] at hsplit
        exact h.replies before j sql' reply behind' (List.append_inj' hsplit rfl).1
    · rw [hlog, hdb, List.map_append, serve_append, ← h.db_eq]
      rfl

/-- A run of the server and its executor. -/
theorem follows_of_run {numThreads hardware n : ℕ} (hn : n = ThreadPool.threadCount numThreads hardware)
    (hlt : n < 2 ^ 64) {events : List Event}
    (hrun : run (stepAlone exec) (init numThreads hardware, db₀) events = .ok st) :
    st.1.Sound n ∧ Follows exec db₀ st := by
  refine run_induction (fun st => st.1.Sound n ∧ Follows exec db₀ st) ?_ ⟨hn ▸ init_sound numThreads hardware, ?_⟩ hrun
  · intro st ev st' h hstep
    obtain ⟨⟨ev', hev'⟩, -⟩ := stepAlone_cases hstep
    exact ⟨h.1.step hlt hev', h.2.step hstep⟩
  · exact ⟨by simp [init], rfl⟩

/-! ## One connection after the other -/

/-- The log of a single worker, connection by connection. -/
theorem Sound.log_eq (h : s.Sound 1) :
    s.log = (List.range s.peers.length).flatMap fun i => proj Prod.fst i s.log := by
  have hcover : ∀ x ∈ s.log, x.1 ∈ List.range s.peers.length := fun x hx =>
    List.mem_range.mpr (lt_of_lt_of_le (h.logged x hx) h.started_le)
  refine eq_of_proj (h.sequential rfl) (sorted_blocks ?_ s.log) (proj_blocks List.nodup_range hcover)
  exact List.pairwise_lt_range.imp le_of_lt

theorem Sound.proj_log {n : ℕ} (h : s.Sound n) {i : ℕ} {peer : Peer} (hpeer : s.peers[i]? = some peer) :
    proj Prod.fst i s.log = peer.answered.map (Prod.mk i) := by
  rw [← (h.peers i peer hpeer).log, List.map_map]
  refine (List.map_id _).symm.trans (List.map_congr_left fun y hy => ?_)
  rw [← comp_of_mem_proj hy]
  rfl

/-- The texts of the first connections. -/
theorem Sound.flatMap_range {n : ℕ} (h : s.Sound n) {i : ℕ} (hi : i ≤ s.peers.length) :
    ((List.range i).flatMap fun j => (proj Prod.fst j s.log).map fun y => y.2.1) = (s.peers.take i).flatMap texts := by
  induction i with
  | zero => rfl
  | succ i ih =>
    have hpeer := List.getElem?_eq_getElem (Nat.lt_of_succ_le hi)
    have hone : (proj Prod.fst i s.log).map (fun y => y.2.1) = texts s.peers[i] := by
      rw [h.proj_log hpeer, List.map_map]
      rfl
    rw [List.range_succ, List.flatMap_append, List.flatMap_singleton, ih (Nat.le_of_succ_le hi), hone,
      List.take_add_one, hpeer, Option.toList_some, List.flatMap_append, List.flatMap_singleton]

theorem Sound.log_texts (h : s.Sound 1) : (s.log.map fun y => y.2.1) = s.peers.flatMap texts := by
  have hlog := congrArg (List.map fun y : ℕ × Text × Reply => y.2.1) h.log_eq
  rw [List.map_flatMap, h.flatMap_range le_rfl, List.take_length] at hlog
  exact hlog

/-- What was answered on a connection, in the log. -/
theorem Sound.log_split (h : s.Sound 1) {i : ℕ} {peer : Peer} (hpeer : s.peers[i]? = some peer)
    {before behind : List (Text × Reply)} {x : Text × Reply} (hx : peer.answered = before ++ x :: behind) :
    ∃ past later, s.log = past ++ (i, x) :: later ∧ past.map (fun y => y.2.1) = s.earlier i before.length := by
  have hi := (List.getElem?_eq_some_iff.mp hpeer).1
  have hrange : List.range s.peers.length = List.range i ++ i :: (List.range s.peers.length).drop (i + 1) := by
    have hi' : i < (List.range s.peers.length).length := by rwa [List.length_range]
    have hsplit := List.take_append_drop i (List.range s.peers.length)
    rw [List.take_range, Nat.min_eq_left hi.le, List.drop_eq_getElem_cons hi', List.getElem_range] at hsplit
    exact hsplit.symm
  refine ⟨(List.range i).flatMap (fun j => proj Prod.fst j s.log) ++ before.map (Prod.mk i),
    behind.map (Prod.mk i) ++ ((List.range s.peers.length).drop (i + 1)).flatMap (fun j => proj Prod.fst j s.log),
    ?_, ?_⟩
  · have hlog := h.log_eq
    rw [hrange, List.flatMap_append, List.flatMap_cons, h.proj_log hpeer, hx, List.map_append,
      List.map_cons] at hlog
    simp only [List.append_assoc, List.cons_append] at hlog ⊢
    exact hlog
  · rw [List.map_append, List.map_flatMap, h.flatMap_range hi.le, earlier, hpeer, Option.map_some,
      Option.getD_some, texts, hx, List.map_append, List.take_left' (List.length_map _), List.map_map]
    rfl

/-- Every client of a server with one worker gets what the database permits behind the statements of all
clients before it, and its own. -/
theorem single_worker_database (p : Platform) (exec : Executor → Statement → Executor × Reply)
    (hexec : Behaves p exec) (dataDir : Text) (disk : Disk) (numThreads hardware : ℕ)
    (hone : ThreadPool.threadCount numThreads hardware = 1) (events : List Event) (s : Serving) (e : Executor)
    (hrun : run (stepAlone exec) (init numThreads hardware, Executor.init dataDir disk) events = .ok (s, e))
    (hservable : (Database.spec p).Meets (Servable p) .empty ((s.peers.flatMap texts).map Parser.parse)) :
    (∀ (i k : ℕ) peer sql reply, s.peers[i]? = some peer → peer.answered[k]? = some (sql, reply) →
      Replies p ((Database.spec p).after .empty ((s.earlier i k).map Parser.parse)) (Parser.parse sql) reply) ∧
      Represents p e ((Database.spec p).after .empty ((s.peers.flatMap texts).map Parser.parse)) := by
  obtain ⟨hsound, hfollows⟩ := follows_of_run hone.symm (by decide) hrun
  have hinit := represents_init p dataDir disk
  rw [← hsound.log_texts] at hservable ⊢
  refine ⟨fun i k peer sql reply hpeer hanswered => ?_, ?_⟩
  · obtain ⟨hk, hget⟩ := List.getElem?_eq_some_iff.mp hanswered
    have hsplit : peer.answered = peer.answered.take k ++ (sql, reply) :: peer.answered.drop (k + 1) := by
      rw [← hget, ← List.drop_eq_getElem_cons hk, List.take_append_drop]
    obtain ⟨past, later, hlog, hpast⟩ := hsound.log_split hpeer hsplit
    rw [List.length_take, Nat.min_eq_left hk.le] at hpast
    rw [hlog, List.map_append, List.map_cons] at hservable
    rw [hfollows.replies past i sql reply later hlog, ← hpast]
    exact (replies_serve hexec hinit hservable).1
  · have hdb := hfollows.db_eq
    dsimp only at hdb
    rw [hdb]
    exact serve_represents hexec hinit hservable

/-- The first client fills a table, and the second one has asked about it early. -/
def fillAndAsk : List Event :=
  [.accept, .accept, .arrive 1 (str "SELECT N FROM T WHERE ID = 2;"), .wake 0,
    .arrive 0 (str "CREATE TABLE T (ID INT, N TEXT);INSERT INTO T VALUES (1,'a'),(2,'b');"), .work 0 (.recv 69),
    .work 0 (.exec {}), .work 0 (.send 4), .work 0 (.exec {}), .work 0 (.send 4), .hangUp 0, .wake 0,
    .work 0 (.recv 29), .work 0 (.exec {}), .work 0 (.send 10), .hangUp 0]

theorem single_worker_database_fillAndAsk :
    ∃ s e, run (stepAlone (handler .reference)) (init 1 8, Executor.init (str "data") .blank) fillAndAsk =
        .ok (s, e) ∧
      s.peers[1]?.map Peer.sent = some (str "ROW b\nEND\n") ∧
      (∀ (i k : ℕ) peer sql reply, s.peers[i]? = some peer → peer.answered[k]? = some (sql, reply) →
        Replies .reference ((Database.spec .reference).after .empty ((s.earlier i k).map Parser.parse))
          (Parser.parse sql) reply) ∧
      Represents .reference e
        ((Database.spec .reference).after .empty ((s.peers.flatMap texts).map Parser.parse)) := by
  have hend : (run (stepAlone (handler .reference)) (init 1 8, Executor.init (str "data") .blank) fillAndAsk).map
      (fun r => ((r.1.peers.flatMap texts).map Parser.parse, r.1.peers[1]?.map Peer.sent)) =
      .ok (sent pointQuerySession, some (str "ROW b\nEND\n")) := by decide +kernel
  obtain ⟨⟨s, e⟩, hrun, hsame⟩ := Fallible.map_eq_ok hend
  obtain ⟨htexts, hsent⟩ := Prod.mk.inj hsame
  have hservable : (Database.spec .reference).Meets (Servable .reference) .empty
      ((s.peers.flatMap texts).map Parser.parse) := htexts ▸ meets_pointQuerySession
  exact ⟨s, e, hrun, hsent, single_worker_database .reference _ (behaves_handler .reference) (str "data") .blank
    1 8 rfl fillAndAsk s e hrun hservable⟩

end FlexQL.Serving
