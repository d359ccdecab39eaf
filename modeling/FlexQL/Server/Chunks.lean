import FlexQL.Lib.TextLemmas
import FlexQL.Server.Wire

/-!
# Statements from chunks

`handle_client` appends what `recv` returns to its accumulator and takes the statements out of it that
a semicolon ends. Taking the bytes one at a time has the same effect, so it does not matter how the
stream of a client is cut into chunks.
-/

namespace FlexQL.Wire

open Text

variable {σ : Type} {exec : σ → Statement → Option (σ × Reply)}

/-! ## The handler -/

/-- `handle_client` between two calls of `recv`. -/
structure Session (σ : Type) where
  accumulator : Text := []
  /-- The texts that were passed to `Parser::parse`. -/
  parsed : List Text := []
  sent : Text := []
  /-- The executor has returned from every statement. -/
  running : Bool := true
  db : σ

/-- The executor and the bytes to send behind a statement. The executor may not return, when an
exception leaves it. -/
def answer (exec : σ → Statement → Option (σ × Reply)) (db : σ) (sql : Text) : Option (σ × Text) :=
  let stmt := Parser.parse sql
  let r := if stmt.type = .none then some (db, { err := str "Invalid SQL" }) else exec db stmt
  r.map fun r => (r.1, replyBytes r.2)

namespace Session

/-- The body of the inner loop. When the executor does not return, the handler is gone with its
accumulator. -/
def execute (exec : σ → Statement → Option (σ × Reply)) (s : Session σ) (sql : Text) : Session σ :=
  match answer exec s.db sql with
  | none => { s with accumulator := [], parsed := s.parsed ++ [sql], running := false }
  | some (db, bytes) => { s with parsed := s.parsed ++ [sql], sent := s.sent ++ bytes, db := db }

/-- The inner loop. Every round takes a byte from the accumulator. -/
def takeStatements (exec : σ → Statement → Option (σ × Reply)) : ℕ → Session σ → Session σ
  | 0, s => s
  | fuel + 1, s =>
    match cut (ch ';') s.accumulator with
    | none => s
    | some (sql, rest) => takeStatements exec fuel ({ s with accumulator := rest }.execute exec sql)

/-- One round of the outer loop. The buffer is appended as a C string. -/
def receive (exec : σ → Statement → Option (σ × Reply)) (s : Session σ) (buffer : Text) : Session σ :=
  if s.running then
    takeStatements exec (s.accumulator.length + buffer.length)
      { s with accumulator := s.accumulator ++ cStr buffer }
  else s

end Session

/-- `handle_client`, for the chunks that `recv` returns. -/
def handleClient (exec : σ → Statement → Option (σ × Reply)) (db : σ) (chunks : List Text) : Session σ :=
  chunks.foldl (Session.receive exec) { db := db }

/-! ## The stream -/

/-- The chunks in which a stream may arrive. -/
structure Chunks (stream : Text) (chunks : List Text) : Prop where
  flatten_eq : chunks.flatten = stream
  size : ∀ chunk ∈ chunks, chunk ≠ [] ∧ chunk.length ≤ bufferSize

/-- The pieces of a stream that end at a semicolon. -/
def pieces (stream : Text) : List Text := (stream.splitOn (ch ';')).dropLast

/-- What stands behind the last semicolon. -/
def unfinished (stream : Text) : Text := (stream.splitOn (ch ';')).getLast (List.splitOn_ne_nil _ _)

/-! ## One byte at a time -/

namespace Session

variable {s : Session σ}

/-- The handler takes one byte. -/
def feed (exec : σ → Statement → Option (σ × Reply)) (s : Session σ) (b : UInt8) : Session σ :=
  if s.running then
    if b = ch ';' then { s with accumulator := [] }.execute exec s.accumulator
    else { s with accumulator := s.accumulator ++ [b] }
  else s

theorem foldl_feed_of_stopped (h : s.running = false) (bytes : Text) : bytes.foldl (feed exec) s = s := by
  induction bytes with
  | nil => rfl
  | cons b bytes ih => simpa [feed, h] using ih

/-- There is no semicolon left to be found. -/
theorem takeStatements_of_notMem (h : ch ';' ∉ s.accumulator) (fuel : ℕ) : takeStatements exec fuel s = s := by
  cases fuel with
  | zero => rfl
  | succ fuel => simp [takeStatements, cut_eq_none.mpr h]

/-- The inner loop takes the new bytes one after the other. -/
theorem takeStatements_eq (hs : s.running = true) (hacc : ch ';' ∉ s.accumulator) (bytes : Text)
    {fuel : ℕ} (hfuel : bytes.length ≤ fuel) :
    takeStatements exec fuel { s with accumulator := s.accumulator ++ bytes } = bytes.foldl (feed exec) s := by
  induction bytes generalizing s fuel with
  | nil =>
    rw [List.append_nil]
    exact takeStatements_of_notMem hacc fuel
  | cons b bytes ih =>
    rw [List.length_cons] at hfuel
    rw [List.foldl_cons]
    by_cases hb : b = ch ';'
    · subst hb
      obtain ⟨fuel, rfl⟩ : ∃ n, fuel = n + 1 := ⟨fuel - 1, by omega⟩
      have hcut : cut (ch ';') (s.accumulator ++ ch ';' :: bytes) = some (s.accumulator, bytes) :=
        cut_eq_some.mpr ⟨rfl, hacc⟩
      have hfeed : feed exec s (ch ';') = { s with accumulator := [] }.execute exec s.accumulator := by
        simp [feed, hs]
      simp only [takeStatements, hcut, hfeed]
      cases hanswer : answer exec s.db s.accumulator with
      | none =>
        rw [foldl_feed_of_stopped (by simp [execute, hanswer])]
        simp only [execute, hanswer]
        exact takeStatements_of_notMem (by simp) fuel
      | some r =>
        simp only [execute, hanswer]
        exact ih (s := ⟨[], s.parsed ++ [s.accumulator], s.sent ++ r.2, s.running, r.1⟩) hs (by simp) (by omega)
    · have hacc' : ch ';' ∉ s.accumulator ++ [b] := by
        simp only [List.mem_append, List.mem_singleton, not_or]
        exact ⟨hacc, fun h => hb h.symm⟩
      have hfeed : feed exec s b = { s with accumulator := s.accumulator ++ [b] } := by
        simp [feed, hs, hb]
      rw [hfeed, ← List.singleton_append, ← List.append_assoc]
      exact ih (s := { s with accumulator := s.accumulator ++ [b] }) hs hacc' (by omega)

/-- What holds behind the bytes of a stream: the texts that were parsed, each with its semicolon, are
its beginning, and as long as the handler runs the accumulator is the rest. -/
structure Framed (stream : Text) (s : Session σ) : Prop where
  split : ∃ rest, stream = s.parsed.flatMap (· ++ [ch ';']) ++ rest ∧
    (s.running = true → rest = s.accumulator ∧ ch ';' ∉ s.accumulator)
  notMem : ∀ sql ∈ s.parsed, ch ';' ∉ sql

theorem framed_init (db : σ) : Framed [] { db := db } := ⟨⟨[], by simp⟩, by simp⟩

/-- One byte more. -/
theorem Framed.feed {stream : Text} (h : Framed stream s) (b : UInt8) :
    Framed (stream ++ [b]) (feed exec s b) := by
  obtain ⟨⟨rest, hstream, hrest⟩, hparsed⟩ := h
  cases hs : s.running with
  | false =>
    rw [Session.feed, hs]
    refine ⟨⟨rest ++ [b], ?_, by simp [hs]⟩, hparsed⟩
    rw [hstream, List.append_assoc]
    rfl
  | true =>
    obtain ⟨rfl, hacc⟩ := hrest hs
    by_cases hb : b = ch ';'
    · subst hb
      have hparsed' : ∀ sql ∈ s.parsed ++ [s.accumulator], ch ';' ∉ sql := by
        rw [List.forall_mem_append, List.forall_mem_singleton]
        exact ⟨hparsed, hacc⟩
      have hstream' : stream ++ [ch ';'] = (s.parsed ++ [s.accumulator]).flatMap (· ++ [ch ';']) ++ [] := by
        simp [hstream]
      simp only [Session.feed, hs, if_true, execute]
      split
      · exact ⟨⟨[], hstream', by simp⟩, hparsed'⟩
      · exact ⟨⟨[], hstream', by simp⟩, hparsed'⟩
    · simp only [Session.feed, hs, hb, if_true, if_false]
      refine ⟨⟨s.accumulator ++ [b], by simp [hstream], fun _ => ⟨rfl, ?_⟩⟩, hparsed⟩
      simp only [List.mem_append, List.mem_singleton, not_or]
      exact ⟨hacc, fun h => hb h.symm⟩

theorem Framed.foldl_feed {stream : Text} (h : Framed stream s) (bytes : Text) :
    Framed (stream ++ bytes) (bytes.foldl (Session.feed exec) s) := by
  induction bytes generalizing stream s with
  | nil => rwa [List.append_nil]
  | cons b bytes ih =>
    have hrest := ih (h.feed b : Framed (stream ++ [b]) (Session.feed exec s b))
    rwa [List.append_assoc] at hrest

/-! ## Chunks -/

/-- A chunk without zero bytes is taken byte by byte. -/
theorem Framed.receive_eq {stream : Text} (h : Framed stream s) {chunk : Text} (hnul : 0 ∉ chunk) :
    receive exec s chunk = chunk.foldl (Session.feed exec) s := by
  cases hs : s.running with
  | false => rw [receive, hs, foldl_feed_of_stopped hs]; rfl
  | true =>
    obtain ⟨⟨rest, -, hrest⟩, -⟩ := h
    have hcStr : cStr chunk = chunk := cStr_of_nonzero fun x hx hzero => hnul (hzero ▸ hx)
    rw [receive, if_pos hs, hcStr]
    exact takeStatements_eq hs (hrest hs).2 chunk (by omega)

theorem Framed.foldl_receive {stream : Text} (h : Framed stream s) {chunks : List Text}
    (hnul : 0 ∉ chunks.flatten) :
    chunks.foldl (receive exec) s = chunks.flatten.foldl (Session.feed exec) s := by
  induction chunks generalizing stream s with
  | nil => rfl
  | cons chunk chunks ih =>
    simp only [List.flatten_cons, List.mem_append, not_or] at hnul
    rw [List.foldl_cons, h.receive_eq hnul.1, ih (h.foldl_feed chunk) hnul.2, List.flatten_cons,
      List.foldl_append]

end Session

/-- The handler sees the stream and not the chunks. -/
theorem handleClient_eq {db : σ} {stream : Text} {chunks : List Text} (h : Chunks stream chunks)
    (hnul : 0 ∉ stream) : handleClient exec db chunks = stream.foldl (Session.feed exec) { db := db } := by
  rw [← h.flatten_eq] at hnul ⊢
  exact (Session.framed_init db).foldl_receive hnul

theorem splitOn_flatMap {vs : List Text} (hvs : ∀ v ∈ vs, ch ';' ∉ v) (rest : Text) :
    (vs.flatMap (· ++ [ch ';']) ++ rest).splitOn (ch ';') = vs ++ rest.splitOn (ch ';') := by
  induction vs with
  | nil => rfl
  | cons v vs ih =>
    rw [List.forall_mem_cons] at hvs
    rw [List.flatMap_cons, List.append_assoc, List.append_assoc, List.singleton_append,
      List.splitOn_append_cons_self_of_not_mem hvs.1, ih hvs.2, List.cons_append]

/-- The texts that are parsed are pieces of the stream, and as long as the executor returns they are
all of them. -/
theorem Session.Framed.parsed {stream : Text} {s : Session σ} (h : Framed stream s) :
    s.parsed <+: pieces stream ∧
      (s.running = true → s.parsed = pieces stream ∧ s.accumulator = unfinished stream) := by
  obtain ⟨⟨rest, rfl, hrest⟩, hparsed⟩ := h
  have hne := List.splitOn_ne_nil (ch ';') rest
  have hsplit := splitOn_flatMap hparsed rest
  simp only [pieces, unfinished, hsplit, List.dropLast_append_of_ne_nil hne,
    List.getLast_append_of_ne_nil _ hne]
  refine ⟨List.prefix_append _ _, fun hs => ?_⟩
  obtain ⟨rfl, hacc⟩ := hrest hs
  simp [List.splitOn_eq_singleton hacc]

end FlexQL.Wire
