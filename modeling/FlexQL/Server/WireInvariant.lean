import FlexQL.Server.Responses

/-!
# Where the bytes of a connection are

At any time the bytes that were sent to the server are statements that it has executed, its
accumulator and what is on its way; and the responses to the executed statements are what the calls
have consumed, the accumulator of the client and what is on its way.
-/

namespace FlexQL.Wire

open Text Framing Runs

variable {σ : Type} {exec : σ → Statement → σ × Reply} {db₀ : σ}

/-! ## Requests and responses -/

/-- The statements of a request, without their semicolons. -/
def statements (request : Text) : List Text := getLines (ch ';') request

/-- Put the semicolons back. -/
def terminated (sqls : List Text) : Text := (sqls.map (· ++ [ch ';'])).flatten

/-- The executor behind statements, and the responses to them. -/
def serve (exec : σ → Statement → σ × Reply) : σ → List Text → σ × List Text
  | db, [] => (db, [])
  | db, sql :: sqls =>
    let rest := serve exec (respond exec db sql).1 sqls
    (rest.1, (respond exec db sql).2 :: rest.2)

/-- The requests that calls have sent. -/
def requests (events : List Event) : List Text :=
  events.filterMap fun
    | .call sql => if request sql = [] then none else some (request sql)
    | _ => none

theorem serve_append (db : σ) (sqls sqls' : List Text) :
    serve exec db (sqls ++ sqls') = ((serve exec (serve exec db sqls).1 sqls').1,
      (serve exec db sqls).2 ++ (serve exec (serve exec db sqls).1 sqls').2) := by
  induction sqls generalizing db with
  | nil => rfl
  | cons sql sqls ih => simp only [List.cons_append, serve, ih]

theorem serve_length (db : σ) (sqls : List Text) : (serve exec db sqls).2.length = sqls.length := by
  induction sqls generalizing db with
  | nil => rfl
  | cons sql sqls ih => simp [serve, ih]

/-- All bytes of responses come from lines of the server. -/
theorem Clean.serve (h : Clean exec) (db : σ) (sqls : List Text) :
    ∀ r ∈ (serve exec db sqls).2, ∃ lines, HasLines r lines ∧ Block isEnd lines := by
  induction sqls generalizing db with
  | nil => simp [Wire.serve]
  | cons sql sqls ih => exact List.forall_mem_cons.mpr ⟨h.exists_lines db sql, ih _⟩

theorem Clean.serve_response (h : Clean exec) (db : σ) (sqls : List Text) :
    ∀ r ∈ (Wire.serve exec db sqls).2, Response r := by
  intro r hr
  obtain ⟨lines, hlines, hblock⟩ := h.serve db sqls r hr
  exact ⟨lines, hlines.isLine, hblock, hlines.bytes_eq⟩

theorem Clean.serve_nonzero (h : Clean exec) (db : σ) (sqls : List Text) :
    ∀ b ∈ (Wire.serve exec db sqls).2.flatten, b ≠ 0 := by
  intro b hb
  obtain ⟨r, hr, hb⟩ := List.mem_flatten.mp hb
  obtain ⟨lines, hlines, -⟩ := h.serve db sqls r hr
  exact hlines.nonzero b hb

theorem terminated_append (sqls sqls' : List Text) :
    terminated (sqls ++ sqls') = terminated sqls ++ terminated sqls' := by
  simp [terminated]

theorem request_cases {sql : Text} (h : request sql ≠ []) :
    ∃ body, request sql = body ++ [ch ';'] ∧ ∀ b ∈ body, b ≠ 0 := by
  unfold request at h ⊢
  have hnonzero : ∀ b ∈ cStr sql, b ≠ 0 := fun b hb => ne_zero_of_mem_cStr hb
  simp only at h ⊢
  split at h
  · rename_i hq
    rcases hq with hq | hq
    · exact absurd hq h
    · rw [if_pos (Or.inr hq)]
      obtain ⟨body, hbody⟩ := List.getLast?_eq_some_iff.mp hq
      exact ⟨body, hbody, fun b hb => hnonzero b (by rw [hbody]; exact List.mem_append_left _ hb)⟩
  · rename_i hq
    rw [if_neg hq]
    exact ⟨cStr sql, rfl, hnonzero⟩

theorem mem_requests {events : List Event} {q : Text} (h : q ∈ requests events) :
    ∃ body, q = body ++ [ch ';'] ∧ ∀ b ∈ body, b ≠ 0 := by
  obtain ⟨ev, -, hev⟩ := List.mem_filterMap.mp h
  cases ev with
  | call sql =>
    simp only at hev
    split at hev
    · cases hev
    · rename_i hne
      cases hev
      exact request_cases hne
  | clientRecv n => cases hev
  | serverRecv n => cases hev
  | serverExec => cases hev
  | serverSend n => cases hev

theorem requests_nonzero (events : List Event) : ∀ b ∈ (requests events).flatten, b ≠ 0 := by
  intro b hb
  obtain ⟨q, hq, hb⟩ := List.mem_flatten.mp hb
  obtain ⟨body, rfl, hbody⟩ := mem_requests hq
  rcases List.mem_append.mp hb with hb | hb
  · exact hbody b hb
  · rw [List.mem_singleton.mp hb]
    decide

/-- A request is its statements. -/
theorem terminated_statements (body : Text) :
    terminated (statements (body ++ [ch ';'])) = body ++ [ch ';'] := by
  induction body with
  | nil => rfl
  | cons b body ih =>
    unfold statements at ih ⊢
    rw [List.cons_append, getLines]
    by_cases hb : b = ch ';'
    · subst hb
      simpa [terminated] using ih
    · rw [if_neg hb]
      cases hlines : getLines (ch ';') (body ++ [ch ';']) with
      | nil => exact absurd hlines (getLines_ne_nil _ (by simp))
      | cons piece pieces =>
        rw [hlines] at ih
        simpa [terminated] using ih

theorem not_mem_statements {q sql : Text} (h : sql ∈ statements q) : ch ';' ∉ sql := (mem_getLines h).1

/-- The statements of all requests, in the order in which they are sent. -/
theorem terminated_requests (events : List Event) :
    terminated ((requests events).flatMap statements) = (requests events).flatten := by
  have hall : ∀ qs : List Text, (∀ q ∈ qs, ∃ body, q = body ++ [ch ';']) →
      terminated (qs.flatMap statements) = qs.flatten := by
    intro qs hqs
    induction qs with
    | nil => rfl
    | cons q qs ih =>
      rw [List.forall_mem_cons] at hqs
      obtain ⟨⟨body, rfl⟩, hqs⟩ := hqs
      rw [List.flatMap_cons, terminated_append, terminated_statements, ih hqs, List.flatten_cons]
  apply hall
  intro q hq
  obtain ⟨body, hbody, -⟩ := mem_requests hq
  exact ⟨body, hbody⟩

/-- Every request holds a statement. -/
theorem length_le_statements (events : List Event) :
    (requests events).length ≤ ((requests events).flatMap statements).length := by
  have hall : ∀ qs : List Text, (∀ q ∈ qs, q ≠ []) → qs.length ≤ (qs.flatMap statements).length := by
    intro qs hqs
    induction qs with
    | nil => simp
    | cons q qs ih =>
      rw [List.forall_mem_cons] at hqs
      have hq := List.length_pos_iff.mpr (getLines_ne_nil (ch ';') hqs.1)
      have hrest := ih hqs.2
      rw [List.flatMap_cons, List.length_append, List.length_cons, statements]
      omega
  apply hall
  intro q hq
  obtain ⟨body, rfl, -⟩ := mem_requests hq
  simp

/-- Statements can be read back from their bytes. -/
theorem of_terminated {sqls sqls' : List Text} {x : Text} (h : ∀ sql ∈ sqls, ch ';' ∉ sql)
    (h' : ∀ sql ∈ sqls', ch ';' ∉ sql) (heq : terminated sqls ++ x = terminated sqls') :
    ∃ rest, sqls' = sqls ++ rest ∧ x = terminated rest := by
  have hblock : ∀ {sqls : List Text}, (∀ sql ∈ sqls, ch ';' ∉ sql) →
      ∀ b ∈ sqls.map (· ++ [ch ';']), Block (fun b => b = ch ';') b := by
    intro sqls hsqls b hb
    obtain ⟨sql, hsql, rfl⟩ := List.mem_map.mp hb
    refine .of_append ?_ (by simp)
    exact fun c hc => decide_eq_false fun heq => hsqls sql hsql (heq ▸ hc)
  obtain ⟨cs, hcs, rfl⟩ := (code_block _).of_flatten (hblock h) (hblock h') heq
  obtain ⟨rest, hrest, rfl⟩ : ∃ rest, sqls' = sqls ++ rest ∧ cs = rest.map (· ++ [ch ';']) := by
    obtain ⟨l, r, rfl, hl, hr⟩ := List.map_eq_append_iff.mp hcs
    refine ⟨r, ?_, hr.symm⟩
    rw [List.map_injective_iff.mpr (fun a b hab => List.append_cancel_right hab) hl]
  exact ⟨rest, hrest, rfl⟩

/-! ## The invariant -/

/-- The call has read lines without an end marker. -/
def Reading (k : Call) : Prop := ∃ lines, HasRead k lines ∧ ∀ line ∈ lines, isEnd line = false

/-- The call has read lines up to an end marker. -/
def Finished (k : Call) : Prop := ∃ lines, HasRead k lines ∧ Block isEnd lines

/-- The statements that the server has executed, and where their responses are. -/
structure Paired (exec : σ → Statement → σ × Reply) (db₀ : σ) (qs done : List Text) (c : Conn σ) :
    Prop where
  unsplit : ∀ sql ∈ done, ch ';' ∉ sql
  sent : qs.flatten = terminated done ++ c.serverAccumulator ++ c.up
  db_eq : c.db = (serve exec db₀ done).1
  answered : (serve exec db₀ done).2.flatten = (c.returned.map Call.consumed).flatten ++
    c.call.elim [] Call.consumed ++ c.accumulator ++ c.down ++ c.sending
  returned : ∀ k ∈ c.returned, Finished k
  running : ∀ k, c.call = some k → Reading k ∧ ch '\n' ∉ c.accumulator
  count : c.returned.length + (if c.call.isSome then 1 else 0) = qs.length

/-- What the loop over the lines of the accumulator leaves behind. -/
structure Drained (c c' : Conn σ) (k : Call) : Prop where
  up_eq : c'.up = c.up
  down_eq : c'.down = c.down
  serverAccumulator_eq : c'.serverAccumulator = c.serverAccumulator
  sending_eq : c'.sending = c.sending
  db_eq : c'.db = c.db
  bytes : (c'.returned.map Call.consumed).flatten ++ c'.call.elim [] Call.consumed ++ c'.accumulator =
    (c.returned.map Call.consumed).flatten ++ k.consumed ++ c.accumulator
  returned : ∀ k' ∈ c'.returned, k' ∈ c.returned ∨ Finished k'
  running : ∀ k', c'.call = some k' → Reading k' ∧ ch '\n' ∉ c'.accumulator
  count : c'.returned.length + (if c'.call.isSome then 1 else 0) = c.returned.length + 1

theorem drain_spec (c : Conn σ) {k : Call} (hk : Reading k) : Drained c (c.drain k) k := by
  obtain ⟨lines, hread, hopen⟩ := hk
  unfold Conn.drain
  split
  · rename_i acc k' hlines
    obtain ⟨lines', hread', hbytes, hended, -⟩ := readLines_spec le_rfl hread hopen hlines
    refine ⟨rfl, rfl, rfl, rfl, rfl, ?_, ?_, by simp, by simp⟩
    · simp only [List.map_append, List.map_cons, List.map_nil, List.flatten_append, List.flatten_cons,
        List.flatten_nil, List.append_nil, Option.elim_none, List.append_assoc, hbytes]
    · intro k'' hk''
      rcases List.mem_append.mp hk'' with hk'' | hk''
      · exact Or.inl hk''
      · rw [List.mem_singleton.mp hk'']
        exact Or.inr ⟨lines', hread', hended rfl⟩
  · rename_i acc k' hlines
    obtain ⟨lines', hread', hbytes, -, hopen'⟩ := readLines_spec le_rfl hread hopen hlines
    refine ⟨rfl, rfl, rfl, rfl, rfl, ?_, fun k' hk' => Or.inl hk', ?_, by simp⟩
    · simp only [Option.elim_some, List.append_assoc, hbytes]
    · rintro k'' ⟨⟩
      exact ⟨⟨lines', hread', (hopen' rfl).1⟩, (hopen' rfl).2⟩

variable {c c' : Conn σ} {ev : Event}

/-- What a step does. -/
theorem step_cases (h : step exec c ev = .ok c') :
    (∃ sql, ev = .call sql ∧ c.call = none ∧ (request sql = [] ∧ c' = c ∨
      request sql ≠ [] ∧ c' = { c with up := c.up ++ request sql }.drain {})) ∨
    (∃ n k, ev = .clientRecv n ∧ c.call = some k ∧ canRecv n c.down ∧ c' = { c with
      accumulator := c.accumulator ++ cStr (c.down.take n), down := c.down.drop n }.drain k) ∨
    (∃ n, ev = .serverRecv n ∧ c.sending = [] ∧ ch ';' ∉ c.serverAccumulator ∧ canRecv n c.up ∧
      c' = { c with
        serverAccumulator := c.serverAccumulator ++ cStr (c.up.take n), up := c.up.drop n }) ∨
    (∃ sql rest, ev = .serverExec ∧ cut (ch ';') c.serverAccumulator = some (sql, rest) ∧
      c.sending = [] ∧ c' = { c with
        serverAccumulator := rest
        db := (respond exec c.db sql).1
        sending := (respond exec c.db sql).2 }) ∨
    (∃ n, ev = .serverSend n ∧ 0 < n ∧ n ≤ c.sending.length ∧ c' = { c with
      down := c.down ++ c.sending.take n, sending := c.sending.drop n }) := by
  cases ev with
  | call sql =>
    simp only [step] at h
    split at h
    · cases h
    · rename_i hcall
      left
      refine ⟨sql, rfl, by simpa using hcall, ?_⟩
      split at h
      · rename_i hnone
        cases h
        exact Or.inl ⟨hnone, rfl⟩
      · rename_i hsome
        cases h
        exact Or.inr ⟨hsome, rfl⟩
  | clientRecv n =>
    simp only [step] at h
    split at h
    · cases h
    · rename_i k hk
      split at h
      · rename_i hn
        cases h
        exact Or.inr (Or.inl ⟨n, k, rfl, hk, hn, rfl⟩)
      · cases h
  | serverRecv n =>
    simp only [step] at h
    split at h
    · rename_i hn
      cases h
      exact Or.inr (Or.inr (Or.inl ⟨n, rfl, hn.1, hn.2.1, hn.2.2, rfl⟩))
    · cases h
  | serverExec =>
    simp only [step] at h
    split at h
    · cases h
    · rename_i sql rest hcut
      split at h
      · rename_i hsending
        cases h
        exact Or.inr (Or.inr (Or.inr (Or.inl ⟨sql, rest, rfl, hcut, hsending, rfl⟩)))
      · cases h
  | serverSend n =>
    simp only [step] at h
    split at h
    · rename_i hn
      cases h
      exact Or.inr (Or.inr (Or.inr (Or.inr ⟨n, rfl, hn.1, hn.2, rfl⟩)))
    · cases h

/-- A chunk of bytes without zero bytes arrives as it is. -/
theorem cStr_take_append_drop {s : Text} (h : ∀ b ∈ s, b ≠ 0) (n : ℕ) :
    cStr (s.take n) ++ s.drop n = s := by
  rw [cStr_of_nonzero fun b hb => h b (List.mem_of_mem_take hb), List.take_append_drop]

theorem reading_new : Reading {} := ⟨[], ⟨by simp, rfl, rfl⟩, by simp⟩

section Step

variable {past : List Event} {done : List Text} (hclean : Clean exec)
  (h : Paired exec db₀ (requests past) done c)

include h

theorem Paired.up_nonzero : ∀ b ∈ c.up, b ≠ 0 := by
  intro b hb
  refine requests_nonzero past b ?_
  rw [h.sent]
  exact List.mem_append_right _ hb

theorem Paired.down_nonzero (hclean : Clean exec) : ∀ b ∈ c.down, b ≠ 0 := by
  intro b hb
  refine hclean.serve_nonzero db₀ done b ?_
  rw [h.answered]
  exact List.mem_append_left _ (List.mem_append_right _ hb)

/-- A call sends its request and looks at what is left in the accumulator. -/
theorem Paired.call {sql : Text} (hcall : c.call = none) (hsql : request sql ≠ []) :
    Paired exec db₀ (requests (past ++ [.call sql])) done
      ({ c with up := c.up ++ request sql }.drain {}) := by
  have hd := drain_spec { c with up := c.up ++ request sql } reading_new
  generalize { c with up := c.up ++ request sql }.drain {} = c' at hd ⊢
  have hqs : requests (past ++ [.call sql]) = requests past ++ [request sql] := by
    simp [requests, hsql]
  rw [hqs]
  constructor
  · exact h.unsplit
  · rw [List.flatten_append, h.sent, hd.serverAccumulator_eq, hd.up_eq]
    simp
  · rw [hd.db_eq]
    exact h.db_eq
  · rw [h.answered, hd.bytes, hd.down_eq, hd.sending_eq, hcall]
    rfl
  · intro k hk
    rcases hd.returned k hk with hk | hk
    · exact h.returned k hk
    · exact hk
  · exact hd.running
  · rw [hd.count, List.length_append, ← h.count, hcall]
    rfl

include hclean

/-- A call receives bytes and looks for lines. -/
theorem Paired.clientRecv {n : ℕ} {k : Call} (hk : c.call = some k) :
    Paired exec db₀ (requests past) done ({ c with
      accumulator := c.accumulator ++ cStr (c.down.take n), down := c.down.drop n }.drain k) := by
  have hd := drain_spec { c with
    accumulator := c.accumulator ++ cStr (c.down.take n), down := c.down.drop n } (h.running k hk).1
  generalize Conn.drain _ k = c' at hd ⊢
  have hbytes := cStr_take_append_drop (h.down_nonzero hclean) n
  constructor
  · exact h.unsplit
  · rw [h.sent, hd.serverAccumulator_eq, hd.up_eq]
  · rw [hd.db_eq]
    exact h.db_eq
  · rw [h.answered, hd.bytes, hd.down_eq, hd.sending_eq, hk]
    conv_lhs => rw [← hbytes]
    simp only [Option.elim_some, List.append_assoc]
  · intro k' hk'
    rcases hd.returned k' hk' with hk' | hk'
    · exact h.returned k' hk'
    · exact hk'
  · exact hd.running
  · rw [hd.count, ← h.count, hk]
    rfl

/-- Every step keeps the responses in the order of the statements. -/
theorem Paired.next (hstep : step exec c ev = .ok c') :
    ∃ done', Paired exec db₀ (requests (past ++ [ev])) done' c' := by
  have hsame : ∀ {ev : Event}, (∀ sql, ev ≠ .call sql) → requests (past ++ [ev]) = requests past := by
    intro ev hev
    cases ev with
    | call sql => exact absurd rfl (hev sql)
    | _ => simp [requests]
  rcases step_cases hstep with ⟨sql, rfl, hcall, ⟨hsql, rfl⟩ | ⟨hsql, rfl⟩⟩ | ⟨n, k, rfl, hk, -, rfl⟩ |
    ⟨n, rfl, -, -, -, rfl⟩ | ⟨sql, rest, rfl, hcut, hsending, rfl⟩ | ⟨n, rfl, -, -, rfl⟩
  · refine ⟨done, ?_⟩
    have hqs : requests (past ++ [.call sql]) = requests past := by simp [requests, hsql]
    rwa [hqs]
  · exact ⟨done, h.call hcall hsql⟩
  · rw [hsame (by simp)]
    exact ⟨done, h.clientRecv hclean hk⟩
  · rw [hsame (by simp)]
    refine ⟨done, h.unsplit, ?_, h.db_eq, h.answered, h.returned, h.running, h.count⟩
    have hbytes := cStr_take_append_drop h.up_nonzero n
    rw [h.sent]
    conv_lhs => rw [← hbytes]
    simp only [List.append_assoc]
  · rw [hsame (by simp)]
    obtain ⟨hacc, hsql⟩ := cut_eq_some.mp hcut
    refine ⟨done ++ [sql], ?_, ?_, ?_, ?_, h.returned, h.running, h.count⟩
    · exact List.forall_mem_append.mpr ⟨h.unsplit, by simpa using hsql⟩
    · rw [h.sent, hacc, terminated_append]
      simp [terminated]
    · rw [serve_append, ← h.db_eq]
      rfl
    · rw [serve_append, List.flatten_append, h.answered, hsending, ← h.db_eq]
      simp [serve]
  · rw [hsame (by simp)]
    refine ⟨done, h.unsplit, h.sent, h.db_eq, ?_, h.returned, h.running, h.count⟩
    rw [h.answered]
    conv_lhs => rw [← List.take_append_drop n c.sending]
    simp only [List.append_assoc]

end Step

theorem paired_init (db₀ : σ) : Paired exec db₀ (requests []) [] (Conn.init db₀) where
  unsplit := by simp
  sent := rfl
  db_eq := rfl
  answered := rfl
  returned := by simp [Conn.init]
  running := by simp [Conn.init]
  count := rfl

theorem paired_of_run (hclean : Clean exec) {events : List Event}
    (hrun : run (step exec) (Conn.init db₀) events = .ok c) :
    ∃ done, Paired exec db₀ (requests events) done c := by
  refine (guarded_true _ events).run_induction
    (fun past c => ∃ done, Paired exec db₀ (requests past) done c) ?_ ⟨[], paired_init db₀⟩ hrun
  rintro past c ev c' ⟨done, h⟩ - hstep
  exact h.next hclean hstep

end FlexQL.Wire
