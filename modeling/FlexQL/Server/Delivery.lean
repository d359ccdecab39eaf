import FlexQL.Server.Pairing
import FlexQL.Server.RowCodec

/-!
# What a call hands to its callback

A call that has returned has handed out what the lines of its response say, however the response was
cut on its way. So it delivers the rows and the error that the executor has handed to the server,
as long as these survive the format of the connection.
-/

namespace FlexQL.Wire

open Text Framing Runs

variable {σ : Type} {exec : σ → Statement → σ × Reply} {db₀ : σ} {c c' : Conn σ} {ev : Event} {k : Call}

/-! ## Calls and the lines they have read -/

namespace Call

/-- The call takes a line with its newline. -/
def takeLine (k : Call) (line : Text) : Call :=
  readLine { k with consumed := k.consumed ++ line } (trim isSpace line)

/-- The end marker is neither an error nor a row. -/
theorem readLine_end (k : Call) : k.readLine (str "END") = k := by
  have herror : (str "ERROR:").isPrefixOf (str "END") = false := by decide
  have hrow : (str "ROW ").isPrefixOf (str "END") = false := by decide
  simp only [readLine, herror, hrow, Bool.false_eq_true, if_false]

/-- The call has taken lines one after the other. -/
def Replays (k : Call) : Prop := ∃ lines : List Text, (∀ line ∈ lines, Line line) ∧ k = lines.foldl takeLine {}

theorem Replays.take (h : Replays k) {line : Text} (hline : Line line) : Replays (k.takeLine line) := by
  obtain ⟨lines, hlines, rfl⟩ := h
  refine ⟨lines ++ [line], ?_, by rw [List.foldl_append, List.foldl_cons, List.foldl_nil]⟩
  exact List.forall_mem_append.mpr ⟨hlines, List.forall_mem_singleton.mpr hline⟩

theorem consumed_takeLine (k : Call) (line : Text) : (k.takeLine line).consumed = k.consumed ++ line :=
  consumed_readLine _ _

theorem consumed_foldl (k : Call) (lines : List Text) :
    (lines.foldl takeLine k).consumed = k.consumed ++ lines.flatten := by
  induction lines generalizing k with
  | nil => simp
  | cons line lines ih => rw [List.foldl_cons, ih, consumed_takeLine, List.flatten_cons, List.append_assoc]

/-- The consumed bytes say which lines these were. -/
theorem Replays.eq_foldl (h : Replays k) {lines : List Text} (hlines : ∀ line ∈ lines, Line line)
    (hconsumed : k.consumed = lines.flatten) : k = lines.foldl takeLine {} := by
  obtain ⟨lines', hlines', rfl⟩ := h
  rw [consumed_foldl] at hconsumed
  rw [(code_block _).flatten_inj hlines' hlines hconsumed]

end Call

/-- The loop over the accumulator takes lines one after the other. -/
theorem readLines_replays {fuel : ℕ} {acc acc' : Text} {k k' : Call} {ended : Bool} (hk : k.Replays)
    (h : readLines fuel acc k = (acc', k', ended)) : k'.Replays := by
  induction fuel generalizing acc k with
  | zero =>
    cases h
    exact hk
  | succ fuel ih =>
    rw [readLines] at h
    cases hcut : cut (ch '\n') acc with
    | none =>
      simp only [hcut] at h
      cases h
      exact hk
    | some r =>
      obtain ⟨line, rest⟩ := r
      have htake := hk.take (line_of_not_mem (cut_eq_some.mp hcut).2)
      rw [Call.takeLine, trim_line] at htake
      simp only [hcut] at h
      split at h
      · rename_i hend
        rw [hend, Call.readLine_end] at htake
        cases h
        exact htake
      · exact ih htake h

/-- All calls of a connection. -/
def AllReplay (c : Conn σ) : Prop := (∀ k ∈ c.returned, k.Replays) ∧ ∀ k, c.call = some k → k.Replays

theorem AllReplay.drain (h : ∀ k ∈ c.returned, k.Replays) (hk : k.Replays) : AllReplay (c.drain k) := by
  unfold Conn.drain
  split
  · rename_i acc k' hlines
    have hk' := readLines_replays hk hlines
    exact ⟨List.forall_mem_append.mpr ⟨h, List.forall_mem_singleton.mpr hk'⟩, by simp⟩
  · rename_i acc k' hlines
    refine ⟨h, ?_⟩
    rintro k'' ⟨⟩
    exact readLines_replays hk hlines

/-- Only the client changes its calls. -/
theorem AllReplay.step (h : AllReplay c) (hstep : step exec c ev = .ok c') : AllReplay c' := by
  rcases step_cases hstep with ⟨sql, -, -, ⟨-, rfl⟩ | ⟨-, rfl⟩⟩ | ⟨n, k, -, hk, -, rfl⟩ | ⟨n, -, -, -, -, rfl⟩ |
    ⟨sql, rest, -, -, -, rfl⟩ | ⟨n, -, -, -, rfl⟩
  · exact h
  · exact .drain h.1 ⟨[], by simp, rfl⟩
  · exact .drain h.1 (h.2 k hk)
  · exact h
  · exact h
  · exact h

theorem allReplay_of_run {events : List Event} (h : run (step exec) (Conn.init db₀) events = .ok c) :
    AllReplay c :=
  run_induction AllReplay (fun _ _ _ h hstep => h.step hstep) ⟨by simp [Conn.init], by simp [Conn.init]⟩ h

/-! ## Replies -/

/-- A reply that survives the connection. -/
structure Sendable (reply : Reply) : Prop where
  rows : ∀ row ∈ reply.rows, RoundTrips row
  err : ch '\n' ∉ reply.err ∧ 0 ∉ reply.err
  /-- No white space stands around the error text. -/
  trimmed : trim isSpace reply.err = reply.err

/-- The call has handed out a reply. -/
structure Delivers (k : Call) (reply : Reply) : Prop where
  rows : k.rows = reply.rows
  errmsg : k.errmsg = if reply.err = [] then none else some reply.err
  code : k.code = if reply.err = [] then .ok else .error

variable {reply : Reply} {rows : List (List Text)} {row : List Text} {err : Text}

theorem Sendable.rows_no_newline (h : Sendable reply) : ∀ row ∈ reply.rows, ∀ v ∈ row, ch '\n' ∉ v :=
  fun row hrow v hv => ((h.rows row hrow).unframed v hv).2

/-- The lines of a reply. -/
def replyLines (reply : Reply) : List Text :=
  reply.rows.map serverExecCallback ++
    ((if reply.err = [] then [] else [str "ERROR: " ++ reply.err ++ [ch '\n']]) ++ [str "END\n"])

theorem flatten_replyLines (reply : Reply) : (replyLines reply).flatten = replyBytes reply := by
  rw [replyLines, replyBytes, List.flatten_append, ← List.flatMap_def]
  split <;> simp

theorem line_replyLines (h : Sendable reply) : ∀ line ∈ replyLines reply, Line line := by
  have hend : Line (str "END\n") := line_of_not_mem (show ch '\n' ∉ str "END" by decide)
  have hdata := (hasLines_end.rows h.rows_no_newline).isLine
  unfold replyLines
  split
  · exact hdata
  · have herr := (hasLines_end.error_line h.err).isLine
    rw [List.forall_mem_append] at hdata ⊢
    exact ⟨hdata.1, herr⟩

/-! ## Reading a reply -/

/-- The client finds the values of a row in its line. -/
theorem exists_data_of_roundTrips (h : RoundTrips row) : ∃ data,
    trim isSpace (serverExecCallback row) = str "ROW " ++ data ∧ (getLines (ch '\t') data).map cStr = row := by
  have hline : ch '\n' ∉ str "ROW " ++ [ch '\t'].intercalate (row.map cStr) := by
    rw [List.mem_append, not_or]
    refine ⟨by decide, fun hmem => ?_⟩
    rcases mem_intercalate hmem with heq | ⟨v, hv, hmem⟩
    · revert heq
      decide
    · obtain ⟨w, hw, rfl⟩ := List.mem_map.mp hv
      exact (h.unframed w hw).2 (mem_of_mem_cStr hmem)
  have hcut : cut (ch '\n') (str "ROW " ++ [ch '\t'].intercalate (row.map cStr) ++ [ch '\n']) =
      some (str "ROW " ++ [ch '\t'].intercalate (row.map cStr), []) := cut_eq_some.mpr ⟨rfl, hline⟩
  rw [RoundTrips, callbackCalls, serverExecCallback, List.length_append, List.length_singleton] at h
  rw [serverExecCallback, trim_line]
  simp only [readLines, hcut] at h
  split at h
  · cases h
  · rw [readLines_nil] at h
    exact readLine_rows ((readLine_consumed _ _).symm.trans h)

/-- A row goes to the callback, as long as there was no error. -/
theorem takeLine_row (h : RoundTrips row) (hk : k.errorSeen = false) :
    k.takeLine (serverExecCallback row) = { k with
      rows := k.rows ++ [row], consumed := k.consumed ++ serverExecCallback row } := by
  obtain ⟨data, hdata, hrow⟩ := exists_data_of_roundTrips h
  have herror : (str "ERROR:").isPrefixOf (str "ROW " ++ data) = false := rfl
  have hprefix : (str "ROW ").isPrefixOf (str "ROW " ++ data) = true :=
    List.isPrefixOf_iff_prefix.mpr (List.prefix_append _ _)
  have hdrop : (str "ROW " ++ data).drop 4 = data := rfl
  rw [Call.takeLine, hdata]
  simp only [Call.readLine, herror, hprefix, hk, hdrop, hrow, Bool.false_eq_true, if_false, if_true]

theorem foldl_takeLine_rows (h : ∀ row ∈ rows, RoundTrips row) (hk : k.errorSeen = false) :
    (rows.map serverExecCallback).foldl Call.takeLine k = { k with
      rows := k.rows ++ rows, consumed := k.consumed ++ rows.flatMap serverExecCallback } := by
  induction rows generalizing k with
  | nil => simp
  | cons row rows ih =>
    rw [List.forall_mem_cons] at h
    rw [List.map_cons, List.foldl_cons, takeLine_row h.1 hk, ih h.2 (by exact hk)]
    simp

/-- An error text that is its own trim does not begin with white space. -/
theorem trim_error (h : trim isSpace err = err) (hne : err ≠ []) :
    trim isSpace (str "ERROR: " ++ err) = str "ERROR: " ++ err ∧ err.dropWhile isSpace = err := by
  constructor
  · have hstart : (str "ERROR: " ++ err).dropWhile isSpace = str "ERROR: " ++ err := rfl
    rw [trim, hstart]
    refine dropEnd_eq_self fun b hb => ?_
    obtain ⟨a, ha⟩ : ∃ a, err.getLast? = some a := ⟨_, List.getLast?_eq_some_getLast hne⟩
    rw [List.getLast?_append, ha, Option.some_or] at hb
    rw [← h, trim, hb] at ha
    exact getLast?_dropEnd ha
  · refine (List.dropWhile_suffix isSpace).eq_of_length_le ?_
    have hlength := (dropEnd_isPrefix isSpace (err.dropWhile isSpace)).length_le
    rwa [show dropEnd isSpace (err.dropWhile isSpace) = err from h] at hlength

/-- The error text, without the marker in front of it. -/
theorem takeLine_error (h : trim isSpace err = err) (hne : err ≠ []) (hnul : 0 ∉ err) :
    k.takeLine (str "ERROR: " ++ err ++ [ch '\n']) = { k with
      errorSeen := true, errmsg := some err, consumed := k.consumed ++ (str "ERROR: " ++ err ++ [ch '\n']) } := by
  obtain ⟨htrim, hdrop⟩ := trim_error h hne
  have herror : (str "ERROR:").isPrefixOf (str "ERROR: " ++ err) = true := rfl
  have hmsg : cStr (((str "ERROR: " ++ err).drop 6).dropWhile isSpace) = err := by
    rw [show (str "ERROR: " ++ err).drop 6 = ch ' ' :: err from rfl, List.dropWhile_cons_of_pos (by decide), hdrop]
    exact cStr_of_nonzero fun b hb hzero => hnul (hzero ▸ hb)
  rw [Call.takeLine, trim_line, htrim]
  simp only [Call.readLine, herror, hmsg, if_true]

theorem takeLine_end (k : Call) :
    k.takeLine (str "END\n") = { k with consumed := k.consumed ++ str "END\n" } := by
  rw [Call.takeLine, show trim isSpace (str "END\n") = str "END" by decide, Call.readLine_end]

/-- A call that has consumed a reply has delivered it. -/
theorem Call.Replays.delivers (h : k.Replays) (hreply : Sendable reply) (hk : k.consumed = replyBytes reply) :
    Delivers k reply := by
  rw [h.eq_foldl (line_replyLines hreply) (hk.trans (flatten_replyLines reply).symm), replyLines,
    List.foldl_append, foldl_takeLine_rows hreply.rows rfl]
  by_cases herr : reply.err = []
  · simp only [if_pos herr, List.nil_append, List.foldl_cons, List.foldl_nil, takeLine_end]
    exact ⟨by simp, by simp [herr], by simp [Call.code, herr]⟩
  · simp only [if_neg herr, List.singleton_append, List.foldl_cons, List.foldl_nil,
      takeLine_error hreply.trimmed herr hreply.err.2, takeLine_end]
    exact ⟨by simp, by simp [herr], by simp [Call.code, herr]⟩

/-! ## Runs -/

/-- What the executor hands out for a text. -/
def answerTo (exec : σ → Statement → σ × Reply) (db : σ) (sql : Text) : Reply :=
  let stmt := Parser.parse sql
  if stmt.type = .none then { err := str "Invalid SQL" } else (exec db stmt).2

theorem respond_snd (db : σ) (sql : Text) : (respond exec db sql).2 = replyBytes (answerTo exec db sql) := by
  unfold respond answerTo
  dsimp only
  split <;> rfl

theorem serve_getElem? {db : σ} {sqls : List Text} {i : ℕ} {r : Text} (h : (serve exec db sqls).2[i]? = some r) :
    ∃ sql, sqls[i]? = some sql ∧ r = replyBytes (answerTo exec (serve exec db (sqls.take i)).1 sql) := by
  induction sqls generalizing db i with
  | nil => simp [serve] at h
  | cons sql sqls ih =>
    cases i with
    | zero =>
      obtain rfl := Option.some.inj h
      exact ⟨sql, rfl, respond_snd db sql⟩
    | succ i => exact ih h

/-- The calls deliver the replies to the statements in their order. -/
theorem delivers_of_run (hclean : Clean exec) {events : List Event}
    (hrun : run (step exec) (Conn.init db₀) events = .ok c) {i : ℕ} (hk : c.returned[i]? = some k) :
    ∃ sql, ((requests events).flatMap statements)[i]? = some sql ∧
      ∀ reply, answerTo exec (serve exec db₀ (((requests events).flatMap statements).take i)).1 sql = reply →
        Sendable reply → Delivers k reply := by
  obtain ⟨done, h⟩ := paired_of_run hclean hrun
  obtain ⟨sql, hsql, hconsumed⟩ := serve_getElem? (h.getElem?_returned hclean hk)
  refine ⟨sql, hsql, ?_⟩
  rintro _ rfl hsendable
  exact ((allReplay_of_run hrun).1 k (List.mem_of_getElem? hk)).delivers hsendable hconsumed

end FlexQL.Wire
