import FlexQL.Lib.Fallible
import FlexQL.Server.WireInvariant
import Mathlib.Algebra.GroupWithZero.Nat

/-!
# Which response does a call get?

The server answers the statements in the order in which they arrive, and the client takes one
response for every request, whatever the requests hold. So the calls get the responses in their
order: each its own as long as every request is one statement, and that of an earlier statement
behind a request with more of them.
-/

namespace FlexQL.Wire

open Text Framing Runs Fallible

variable {σ : Type} {exec : σ → Statement → σ × Reply} {db₀ : σ} {c c' : Conn σ} {ev : Event}

/-! ## Responses in order -/

/-- Nothing is on its way, and nothing is left behind. -/
structure Quiet (c : Conn σ) : Prop where
  accumulator : c.accumulator = []
  down : c.down = []
  sending : c.sending = []
  serverAccumulator : c.serverAccumulator = []
  up : c.up = []

theorem Finished.response {k : Call} (h : Finished k) : Response k.consumed := by
  obtain ⟨lines, hread, hblock⟩ := h
  exact ⟨lines, hread.isLine, hblock, hread.consumed⟩

/-- A call that has read a response of the server has seen its errors. -/
theorem Finished.errorSeen {k : Call} (h : Finished k) {lines : List Text}
    (hlines : HasLines k.consumed lines) : k.errorSeen = hasErrorLine k.consumed := by
  obtain ⟨lines', hread, -⟩ := h
  have heq : lines' = lines := by
    refine (code_block _).flatten_inj hread.isLine hlines.isLine ?_
    rw [← hread.consumed, hlines.bytes_eq]
  rw [hread.errorSeen, heq, hlines.error]

section Order

variable {events : List Event} {done : List Text} (hclean : Clean exec)
  (h : Paired exec db₀ (requests events) done c)

include h

/-- The executed statements are the first ones of those that were sent. -/
theorem Paired.done_prefix : ∃ rest, (requests events).flatMap statements = done ++ rest ∧
    c.serverAccumulator ++ c.up = terminated rest := by
  refine of_terminated h.unsplit ?_ ?_
  · intro sql hsql
    obtain ⟨q, -, hq⟩ := List.mem_flatMap.mp hsql
    exact not_mem_statements hq
  · rw [terminated_requests, h.sent, List.append_assoc]

include hclean

/-- The calls that have returned took the first responses. -/
theorem Paired.responses : ∃ rest, (serve exec db₀ done).2 = c.returned.map Call.consumed ++ rest ∧
    c.call.elim [] Call.consumed ++ c.accumulator ++ c.down ++ c.sending = rest.flatten := by
  have heq : (c.returned.map Call.consumed).flatten ++
      (c.call.elim [] Call.consumed ++ c.accumulator ++ c.down ++ c.sending) =
      (serve exec db₀ done).2.flatten := by
    rw [h.answered]
    simp only [List.append_assoc]
  refine (code_message (code_block _) isEnd).of_flatten ?_ (hclean.serve_response db₀ done) heq
  intro r hr
  obtain ⟨k, hk, rfl⟩ := List.mem_map.mp hr
  exact (h.returned k hk).response

theorem Paired.returned_prefix :
    c.returned.map Call.consumed <+: (serve exec db₀ ((requests events).flatMap statements)).2 := by
  obtain ⟨rest, hrest, -⟩ := h.done_prefix
  obtain ⟨rs, hrs, -⟩ := h.responses hclean
  rw [hrest, serve_append, hrs, List.append_assoc]
  exact List.prefix_append _ _

/-- The calls get the responses to the statements of all requests in their order. -/
theorem Paired.getElem?_returned {i : ℕ} {k : Call} (hk : c.returned[i]? = some k) :
    (serve exec db₀ ((requests events).flatMap statements)).2[i]? = some k.consumed := by
  obtain ⟨rest, hrest⟩ := h.returned_prefix hclean
  have hi : i < (c.returned.map Call.consumed).length := by
    rw [List.length_map]
    exact (List.getElem?_eq_some_iff.mp hk).1
  rw [← hrest, List.getElem?_append_left hi, List.getElem?_map, hk]
  rfl

theorem Paired.code {k : Call} (hk : k ∈ c.returned) :
    k.code = .error ↔ hasErrorLine k.consumed = true := by
  obtain ⟨rs, hrs, -⟩ := h.responses hclean
  have hmem : k.consumed ∈ (serve exec db₀ done).2 := by
    rw [hrs]
    exact List.mem_append_left _ (List.mem_map_of_mem hk)
  obtain ⟨lines, hlines, -⟩ := hclean.serve db₀ done k.consumed hmem
  rw [Call.code, (h.returned k hk).errorSeen hlines]
  cases hasErrorLine k.consumed <;> simp

/-! ## Calls return -/

/-- When no statement is on its way, there is a response for the running call. -/
theorem Paired.exists_response {k : Call} (hk : c.call = some k)
    (hnone : ch ';' ∉ c.serverAccumulator ++ c.up) : ∃ r rs, Response r ∧
      c.call.elim [] Call.consumed ++ c.accumulator ++ c.down ++ c.sending = (r :: rs).flatten := by
  obtain ⟨rest, hdone, hrest⟩ := h.done_prefix
  obtain ⟨rs, hrs, hflatten⟩ := h.responses hclean
  have hnil : rest = [] := by
    cases rest with
    | nil => rfl
    | cons sql rest =>
      rw [hrest] at hnone
      simp [terminated] at hnone
  have hlen : (requests events).length ≤ done.length := by
    rw [hnil, List.append_nil] at hdone
    rw [← hdone]
    exact length_le_statements events
  have hcount := h.count
  have hserve : (serve exec db₀ done).2.length = done.length := serve_length db₀ done
  rw [hrs, List.length_append, List.length_map] at hserve
  rw [hk, Option.isSome_some, if_pos rfl] at hcount
  cases rs with
  | nil =>
    rw [List.length_nil] at hserve
    omega
  | cons r rs =>
    refine ⟨r, rs, hclean.serve_response db₀ done r ?_, hflatten⟩
    rw [hrs]
    simp

omit hclean in
/-- A running call has not yet read a whole response. -/
theorem Paired.not_read_response {k : Call} (hk : c.call = some k) {r : Text} (hr : Response r)
    {x : Text} : k.consumed ++ c.accumulator ≠ r ++ x := by
  intro heq
  obtain ⟨⟨lines, hread, hopen⟩, hnewline⟩ := h.running k hk
  obtain ⟨ws, hws, hblock, rfl⟩ := hr
  rw [hread.consumed] at heq
  obtain ⟨us, rfl, hus, hacc⟩ := (code_block _).of_unmarked
    (fun l hl => ⟨hread.isLine l hl, hopen l hl⟩) hws hblock heq
  obtain ⟨u, us, rfl⟩ := List.exists_cons_of_ne_nil hus.ne_nil
  have hline := Line.newline_mem (hws u (by simp))
  rw [hacc] at hnewline
  exact hnewline (by simp [hline])

/-- When every request is one statement, no call leaves anything behind. -/
theorem Paired.quiet (hsingle : (requests events).flatMap statements =
    (requests events).map List.dropLast) (hcall : c.call = none) : Quiet c := by
  obtain ⟨rest, hdone, hrest⟩ := h.done_prefix
  obtain ⟨rs, hrs, hflatten⟩ := h.responses hclean
  have hcount := h.count
  have hserve : (serve exec db₀ done).2.length = done.length := serve_length db₀ done
  rw [hrs, List.length_append, List.length_map] at hserve
  have hlen := congrArg List.length (hsingle.symm.trans hdone)
  rw [List.length_map, List.length_append] at hlen
  simp only [hcall, Option.isSome_none, Bool.false_eq_true, if_false] at hcount
  obtain rfl : rest = [] := List.length_eq_zero_iff.mp (by omega)
  obtain rfl : rs = [] := List.length_eq_zero_iff.mp (by omega)
  simp only [terminated, List.map_nil, List.flatten_nil, List.append_eq_nil_iff] at hrest hflatten
  exact ⟨hflatten.1.1.2, hflatten.1.2, hflatten.2, hrest.1, hrest.2⟩

/-- A running call waits for bytes that some step brings nearer. -/
theorem Paired.exists_step {k : Call} (hk : c.call = some k) :
    ∃ ev, (∀ sql, ev ≠ .call sql) ∧ (step exec c ev).isOk = true := by
  by_cases hsending : c.sending = []
  · by_cases hdown : c.down = []
    · cases hcut : cut (ch ';') c.serverAccumulator with
      | some r =>
        refine ⟨.serverExec, by simp, ?_⟩
        simp only [step, hcut, if_pos hsending]
        rfl
      | none =>
        have hacc := cut_eq_none.mp hcut
        by_cases hup : c.up = []
        · -- nothing is on its way, so the response to the last request is in the accumulator
          exfalso
          obtain ⟨r, rs, hrs⟩ := h.exists_response hclean hk (by rwa [hup, List.append_nil])
          rw [hdown, hsending, List.append_nil, List.append_nil, hk, List.flatten_cons] at hrs
          exact h.not_read_response hk hrs.1 hrs.2
        · refine ⟨.serverRecv 1, by simp, ?_⟩
          have hrecv : canRecv 1 c.up := ⟨by decide, by decide, List.length_pos_iff.mpr hup⟩
          simp only [step, if_pos (And.intro hsending (And.intro hacc hrecv))]
          rfl
    · refine ⟨.clientRecv 1, by simp, ?_⟩
      have hrecv : canRecv 1 c.down := ⟨by decide, by decide, List.length_pos_iff.mpr hdown⟩
      simp only [step, hk, if_pos hrecv]
      rfl
  · refine ⟨.serverSend 1, by simp, ?_⟩
    have hlen : 0 < 1 ∧ 1 ≤ c.sending.length := ⟨by decide, List.length_pos_iff.mpr hsending⟩
    simp only [step, if_pos hlen]
    rfl

end Order

/-- A bound on the steps that are left until the next call: bytes that are still received, sent
and received, and statements that are still executed. -/
def work (exec : σ → Statement → σ × Reply) (c : Conn σ) : ℕ :=
  c.up.length + c.down.length + 2 * c.sending.length +
    ((serve exec c.db (statements (c.serverAccumulator ++ c.up))).2.map fun r => 1 + 2 * r.length).sum

/-- Every step other than a call leaves less work. -/
theorem Paired.work_lt {events : List Event} {done : List Text}
    (h : Paired exec db₀ (requests events) done c) (hev : ∀ sql, ev ≠ .call sql)
    (hstep : step exec c ev = .ok c') : work exec c' < work exec c := by
  rcases step_cases hstep with ⟨sql, rfl, -⟩ | ⟨n, k, rfl, hk, hn, rfl⟩ | ⟨n, rfl, -, -, hn, rfl⟩ |
    ⟨sql, rest, rfl, hcut, hsending, rfl⟩ | ⟨n, rfl, hpos, hn, rfl⟩
  · exact absurd rfl (hev sql)
  · have hd := drain_spec { c with
      accumulator := c.accumulator ++ cStr (c.down.take n), down := c.down.drop n } (h.running k hk).1
    generalize Conn.drain _ k = c' at hd ⊢
    obtain ⟨hpos, -, hlen⟩ := hn
    simp only [work, hd.up_eq, hd.down_eq, hd.sending_eq, hd.serverAccumulator_eq, hd.db_eq,
      List.length_drop]
    omega
  · obtain ⟨hpos, -, hlen⟩ := hn
    have hbytes := cStr_take_append_drop h.up_nonzero n
    simp only [work, List.append_assoc, hbytes, List.length_drop]
    omega
  · obtain ⟨hacc, hsql⟩ := cut_eq_some.mp hcut
    have hstatements : statements (c.serverAccumulator ++ c.up) = sql :: statements (rest ++ c.up) := by
      rw [hacc, statements, List.append_assoc, List.cons_append, getLines_append hsql]
      rfl
    simp only [work, hstatements, serve, List.map_cons, List.sum_cons, hsending, List.length_nil]
    omega
  · simp only [work, List.length_append, List.length_take, List.length_drop]
    omega

/-- The steps until the next call are bounded. -/
theorem length_le_work (hclean : Clean exec) {events more : List Event} {done : List Text}
    (h : Paired exec db₀ (requests events) done c) (hmore : ∀ ev ∈ more, ∀ sql, ev ≠ .call sql)
    (hrun : run (step exec) c more = .ok c') : more.length + work exec c' ≤ work exec c := by
  induction more generalizing c events done with
  | nil =>
    cases hrun
    simp
  | cons ev more ih =>
    rw [List.forall_mem_cons] at hmore
    cases hstep : step exec c ev with
    | error e => simp [run_cons_of_error _ hstep] at hrun
    | ok c₁ =>
      rw [run_cons_of_ok _ hstep] at hrun
      obtain ⟨done₁, h₁⟩ := h.next hclean hstep
      have hlt := h.work_lt hmore.1 hstep
      have hrest := ih h₁ hmore.2 hrun
      rw [List.length_cons]
      omega

/-- A running call can be brought to its end. -/
theorem exists_return (hclean : Clean exec) {events : List Event} {done : List Text}
    (h : Paired exec db₀ (requests events) done c) :
    ∃ more c', (∀ ev ∈ more, ∀ sql, ev ≠ .call sql) ∧ run (step exec) c more = .ok c' ∧
      c'.call = none := by
  induction hw : work exec c using Nat.strong_induction_on generalizing c events done with
  | _ w ih =>
    cases hk : c.call with
    | none => exact ⟨[], c, by simp, rfl, hk⟩
    | some k =>
      obtain ⟨ev, hev, hok⟩ := h.exists_step hclean hk
      cases hstep : step exec c ev with
      | error e => simp [hstep, Except.isOk, Except.toBool] at hok
      | ok c₁ =>
        obtain ⟨done₁, h₁⟩ := h.next hclean hstep
        obtain ⟨more, c', hmore, hrun, hcall⟩ := ih _ (hw ▸ h.work_lt hev hstep) h₁ rfl
        refine ⟨ev :: more, c', List.forall_mem_cons.mpr ⟨hev, hmore⟩, ?_, hcall⟩
        rw [run_cons_of_ok _ hstep, hrun]

/-! ## Single statements -/

/-- A text without a semicolon, except perhaps at its end. -/
def Single (sql : Text) : Prop := 0 ∉ sql ∧ ch ';' ∉ sql.dropLast

/-- Every call gets the response to its own request. -/
structure InStep (exec : σ → Statement → σ × Reply) (db₀ : σ) (events : List Event) (c : Conn σ) :
    Prop where
  /-- A call that has returned has consumed the response to its request. -/
  own : ∀ (i : ℕ) k, c.returned[i]? = some k →
    (serve exec db₀ ((requests events).map List.dropLast)).2[i]? = some k.consumed ∧
      (k.code = .error ↔ hasErrorLine k.consumed = true)
  /-- When no call is running, all have returned and have left nothing behind. -/
  idle : c.call = none → c.returned.length = (requests events).length ∧ Quiet c
  /-- A running call is never stuck, -/
  moves : c.call ≠ none → ∃ ev, (∀ sql, ev ≠ .call sql) ∧ (step exec c ev).isOk = true
  /-- and returns after a bounded number of steps. -/
  returns : ∀ more c', (∀ ev ∈ more, ∀ sql, ev ≠ .call sql) → run (step exec) c more = .ok c' →
    more.length ≤ work exec c

theorem statements_append {body : Text} (h : ch ';' ∉ body) : statements (body ++ [ch ';']) = [body] := by
  rw [statements, getLines_append h]
  rfl

/-- The request of a single statement. -/
theorem statements_request {sql : Text} (h : Single sql) (hne : request sql ≠ []) :
    statements (request sql) = [(request sql).dropLast] := by
  obtain ⟨hnul, hsemi⟩ := h
  have hc : cStr sql = sql := cStr_of_nonzero fun b hb => by
    rintro rfl
    exact hnul hb
  unfold request at hne ⊢
  simp only [hc] at hne ⊢
  split at hne
  · rename_i hq
    rcases hq with hq | hq
    · exact absurd hq hne
    · obtain ⟨body, rfl⟩ := List.getLast?_eq_some_iff.mp hq
      rw [List.dropLast_concat] at hsemi
      rw [if_pos (Or.inr hq), statements_append hsemi, List.dropLast_concat]
  · rename_i hq
    rw [not_or] at hq
    have hsql : ch ';' ∉ sql := by
      intro hmem
      rw [← List.dropLast_concat_getLast hq.1] at hmem
      rcases List.mem_append.mp hmem with hmem | hmem
      · exact hsemi hmem
      · rw [List.mem_singleton] at hmem
        exact hq.2 ((List.getLast?_eq_some_getLast hq.1).trans (congrArg some hmem.symm))
    rw [if_neg (by simp [hq]), statements_append hsql, List.dropLast_concat]

theorem statements_requests {events : List Event}
    (hsingle : ∀ sql, Event.call sql ∈ events → Single sql) :
    (requests events).flatMap statements = (requests events).map List.dropLast := by
  have hall : ∀ q ∈ requests events, statements q = [q.dropLast] := by
    intro q hq
    obtain ⟨ev, hev, hq⟩ := List.mem_filterMap.mp hq
    cases ev with
    | call sql =>
      simp only at hq
      split at hq
      · cases hq
      · rename_i hne
        cases hq
        exact statements_request (hsingle sql hev) hne
    | _ => cases hq
  rw [List.map_eq_flatMap, List.flatMap_def, List.flatMap_def, List.map_congr_left hall]

/-- In every run of calls with single statements, however the bytes are cut, every call gets the
response to its own request and leaves nothing behind. -/
theorem inStep_of_run (exec : σ → Statement → σ × Reply) (db₀ : σ) (events : List Event) (c : Conn σ)
    (hclean : Clean exec) (hsingle : ∀ sql, Event.call sql ∈ events → Single sql)
    (hrun : run (step exec) (Conn.init db₀) events = .ok c) : InStep exec db₀ events c := by
  obtain ⟨done, h⟩ := paired_of_run hclean hrun
  have hstatements := statements_requests hsingle
  constructor
  · intro i k hk
    rw [← hstatements]
    exact ⟨h.getElem?_returned hclean hk, h.code hclean (List.mem_of_getElem? hk)⟩
  · intro hcall
    have hcount := h.count
    rw [hcall] at hcount
    exact ⟨hcount, h.quiet hclean hstatements hcall⟩
  · intro hcall
    obtain ⟨k, hk⟩ := Option.ne_none_iff_exists'.mp hcall
    exact h.exists_step hclean hk
  · intro more c' hmore hrun'
    have := length_le_work hclean h hmore hrun'
    omega

/-- An executor that answers a `DELETE` with the name of its table. -/
def echo (db : Unit) (stmt : Statement) : Unit × Reply :=
  (db, ⟨[[stmt.deleteStmt.tableName.filter (· ≠ ch '\n')]], []⟩)

theorem clean_echo : Clean echo where
  rows := by simp [echo]
  err := by simp [echo]

/-- Two calls, with the bytes cut in the middle of statements and lines. -/
def twoCalls : List Event :=
  [.call (str "DELETE FROM A"), .serverRecv 5, .serverRecv 9, .serverExec, .serverSend 8,
    .clientRecv 3, .serverSend 2, .clientRecv 7, .call (str "DELETE FROM B;"), .serverRecv 14,
    .serverExec, .serverSend 10, .clientRecv 10]

theorem inStep_two_calls :
    ∃ c, run (step echo) (Conn.init ()) twoCalls = .ok c ∧
      c.returned.map Call.rows = [[[str "A"]], [[str "B"]]] ∧ InStep echo () twoCalls c := by
  have hend : (run (step echo) (Conn.init ()) twoCalls).map (fun c => c.returned.map Call.rows) =
      .ok [[[str "A"]], [[str "B"]]] := by decide
  have hsingle : ∀ sql, Event.call sql ∈ twoCalls → Single sql := by
    intro sql hsql
    have : sql = str "DELETE FROM A" ∨ sql = str "DELETE FROM B;" := by simpa [twoCalls] using hsql
    rcases this with rfl | rfl
    · exact ⟨by decide, by decide⟩
    · exact ⟨by decide, by decide⟩
  obtain ⟨c, hrun, hrows⟩ := map_eq_ok hend
  exact ⟨c, hrun, hrows, inStep_of_run echo () twoCalls c clean_echo hsingle hrun⟩

/-- An executor whose error is a zero byte. -/
def zeroError (db : Unit) (_ : Statement) : Unit × Reply := (db, ⟨[], [0]⟩)

/-- A call to which it answers. -/
def zeroErrorCall : List Event :=
  [.call (str "DELETE FROM T"), .serverRecv 14, .serverExec, .serverSend 13, .clientRecv 13]

/-- The client drops what a buffer holds behind a zero byte, here the end marker, and waits for it
forever. -/
theorem not_inStep_zero_error :
    (∀ db stmt, (∀ row ∈ (zeroError db stmt).2.rows, ∀ v ∈ row, ch '\n' ∉ v) ∧
      ch '\n' ∉ (zeroError db stmt).2.err) ∧
    (∀ sql, Event.call sql ∈ zeroErrorCall → Single sql) ∧
    ∃ c, run (step zeroError) (Conn.init ()) zeroErrorCall = .ok c ∧ c.call.isSome = true ∧
      c.accumulator = str "ERROR: " ∧ ¬ InStep zeroError () zeroErrorCall c := by
  have hend : (run (step zeroError) (Conn.init ()) zeroErrorCall).map (fun c =>
      (c.call.isSome, [c.accumulator, c.down, c.up, c.serverAccumulator, c.sending])) =
      .ok (true, [str "ERROR: ", [], [], [], []]) := by decide
  obtain ⟨c, hrun, hc⟩ := map_eq_ok hend
  simp only [Prod.mk.injEq, List.cons.injEq, and_true] at hc
  obtain ⟨hcall, hacc, hdown, hup, hserver, hsending⟩ := hc
  refine ⟨fun _ _ => ⟨by simp [zeroError], by simp [zeroError, ch]⟩, ?_, c, hrun, hcall, hacc, ?_⟩
  · intro sql hsql
    obtain rfl : sql = str "DELETE FROM T" := by simpa [zeroErrorCall] using hsql
    exact ⟨by decide, by decide⟩
  · intro h
    obtain ⟨ev, hev, hok⟩ := h.moves (by simpa [Option.isSome_iff_ne_none] using hcall)
    cases hstep : step zeroError c ev with
    | error e => simp [hstep, Except.isOk, Except.toBool] at hok
    | ok c' =>
      rcases step_cases hstep with ⟨sql, rfl, -⟩ | ⟨n, k, rfl, -, hn, -⟩ | ⟨n, rfl, -, -, hn, -⟩ |
        ⟨sql, rest, rfl, hcut, -⟩ | ⟨n, rfl, hpos, hn, -⟩
      · exact hev sql rfl
      · rw [hdown] at hn
        exact absurd hn.2.2 (by simpa using hn.1.ne')
      · rw [hup] at hn
        exact absurd hn.2.2 (by simpa using hn.1.ne')
      · rw [hserver] at hcut
        cases hcut
      · rw [hsending] at hn
        exact absurd hn (by simpa using hpos.ne')

/-! ## Batches -/

/-- A text with something behind a semicolon: a further statement, or only white space. -/
def Batch (sql : Text) : Prop := 0 ∉ sql ∧ ch ';' ∈ sql.dropLast

/-- A call returns only when it has consumed the responses to all statements of its text. -/
def ConsumesWhole (exec : σ → Statement → σ × Reply) (db₀ : σ) (sql : Text) : Prop :=
  ∀ events c k, (∀ ev ∈ events, ∀ sql, ev ≠ .call sql) →
    run (step exec) (Conn.init db₀) (.call sql :: events) = .ok c → c.returned = [k] →
      k.consumed = (serve exec db₀ (statements (request sql))).2.flatten

/-- The server sees two statements or more. -/
theorem statements_batch {sql : Text} (h : Batch sql) :
    ∃ first second rest, statements (request sql) = first :: second :: rest := by
  obtain ⟨hnul, hsemi⟩ := h
  have hc : cStr sql = sql := cStr_of_nonzero fun b hb => by
    rintro rfl
    exact hnul hb
  obtain ⟨extra, hextra⟩ : ∃ extra, request sql = sql ++ extra := by
    unfold request
    simp only [hc]
    split
    · exact ⟨[], by simp⟩
    · exact ⟨_, rfl⟩
  have hne : sql ≠ [] := by
    rintro rfl
    simp at hsemi
  cases hcut : cut (ch ';') sql.dropLast with
  | none => exact absurd hsemi (cut_eq_none.mp hcut)
  | some r =>
    obtain ⟨first, tail⟩ := r
    obtain ⟨hsplit, hfirst⟩ := cut_eq_some.mp hcut
    have heq : request sql = first ++ ch ';' :: (tail ++ [sql.getLast hne] ++ extra) := by
      rw [hextra]
      conv_lhs => rw [← List.dropLast_concat_getLast hne, hsplit]
      simp
    have hlines := getLines_append hfirst (tail ++ [sql.getLast hne] ++ extra)
    obtain ⟨second, rest, hrest⟩ := List.exists_cons_of_ne_nil
      (getLines_ne_nil (s := tail ++ [sql.getLast hne] ++ extra) (ch ';') (by simp))
    exact ⟨first, second, rest, by rw [statements, heq, hlines, hrest]⟩

theorem requests_call {sql : Text} {events : List Event} (hsql : request sql ≠ []) :
    requests (.call sql :: events) = request sql :: requests events := by
  simp [requests, hsql]

theorem requests_eq_nil {events : List Event} (h : ∀ ev ∈ events, ∀ sql, ev ≠ .call sql) :
    requests events = [] := by
  rw [requests, List.filterMap_eq_nil_iff]
  intro ev hev
  cases ev with
  | call sql => exact absurd rfl (h _ hev sql)
  | _ => rfl

/-- A call with a batch returns with the response to its first statement, and the next call gets
the response to the second one. -/
theorem batch_shifts (exec : σ → Statement → σ × Reply) (db₀ : σ) (sql : Text)
    (hclean : Clean exec) (hbatch : Batch sql) :
    ¬ ConsumesWhole exec db₀ sql ∧
      ∀ events c k, run (step exec) (Conn.init db₀) (.call sql :: events) = .ok c →
        c.returned[1]? = some k →
          (serve exec db₀ (statements (request sql))).2[1]? = some k.consumed := by
  obtain ⟨first, second, rest, hstatements⟩ := statements_batch hbatch
  have hsql : request sql ≠ [] := by
    intro hnil
    rw [hnil] at hstatements
    cases hstatements
  constructor
  · intro hwhole
    have hcall : step exec (Conn.init db₀) (.call sql) =
        .ok ({ Conn.init db₀ with up := request sql }.drain {}) := by
      simp [step, Conn.init, hsql]
    have hrun₁ : run (step exec) (Conn.init db₀) [.call sql] =
        .ok ({ Conn.init db₀ with up := request sql }.drain {}) := (run_singleton _ _).trans hcall
    obtain ⟨done₁, h₁⟩ := paired_of_run hclean hrun₁
    obtain ⟨events, c, hevents, hrun, hidle⟩ := exists_return hclean h₁
    have hrun' : run (step exec) (Conn.init db₀) (.call sql :: events) = .ok c := by
      rw [run_cons_of_ok _ hcall, hrun]
    obtain ⟨done, h⟩ := paired_of_run hclean hrun'
    have hcount := h.count
    rw [requests_call hsql, requests_eq_nil hevents, hidle] at hcount
    obtain ⟨k, hk⟩ := List.length_eq_one_iff.mp hcount
    have hconsumed := hwhole events c k hevents hrun' hk
    have hfirst := h.getElem?_returned hclean (i := 0) (by rw [hk]; rfl)
    rw [requests_call hsql, requests_eq_nil hevents, List.flatMap_cons, List.flatMap_nil,
      List.append_nil, hstatements] at hfirst
    have hsecond := (code_message (code_block _) isEnd).ne_nil
      (hclean.response (respond exec db₀ first).1 second)
    have heq : (respond exec db₀ first).2 = k.consumed := Option.some.inj hfirst
    rw [hstatements, ← heq] at hconsumed
    simp only [serve, List.flatten_cons, List.self_eq_append_right, List.append_eq_nil_iff] at hconsumed
    exact hsecond hconsumed.1
  · intro events c k hrun hk
    obtain ⟨done, h⟩ := paired_of_run hclean hrun
    have hsecond := h.getElem?_returned hclean hk
    rw [requests_call hsql, List.flatMap_cons, serve_append, List.getElem?_append_left] at hsecond
    · exact hsecond
    · rw [serve_length, hstatements]
      simp

/-- The texts of the benchmarks hold a line for each statement. -/
theorem batch_shifts_lines :
    Batch (str "DELETE FROM A;\nDELETE FROM B;\n") ∧
      ¬ ConsumesWhole echo () (str "DELETE FROM A;\nDELETE FROM B;\n") :=
  have hbatch : Batch (str "DELETE FROM A;\nDELETE FROM B;\n") := ⟨by decide, by decide⟩
  ⟨hbatch, (batch_shifts echo () _ clean_echo hbatch).1⟩

/-- A call with two statements that has returned. -/
def firstCall : List Event :=
  [.call (str "DELETE FROM A;DELETE FROM B"), .serverRecv 28, .serverExec, .serverSend 10,
    .clientRecv 10]

/-- A further call returns with the answer to the second statement of the first one. -/
theorem not_consumesWhole_two :
    ¬ ConsumesWhole echo () (str "DELETE FROM A;DELETE FROM B") ∧
    ∃ c, run (step echo) (Conn.init ()) (firstCall ++ [.serverExec, .serverSend 10,
        .call (str "DELETE FROM C"), .clientRecv 10]) = .ok c ∧
      c.returned.map Call.rows = [[[str "A"]], [[str "B"]]] := by
  constructor
  · intro h
    have hend : (run (step echo) (Conn.init ()) firstCall).map (fun c =>
        c.returned.map Call.consumed) = .ok [str "ROW A\nEND\n"] := by decide
    obtain ⟨c, hrun, hc⟩ := map_eq_ok hend
    obtain ⟨k, hk, hconsumed⟩ := List.map_eq_singleton_iff.mp hc
    have hwhole := h _ c k (by simp) hrun hk
    rw [hconsumed] at hwhole
    revert hwhole
    decide
  · exact map_eq_ok (by decide)

end FlexQL.Wire
