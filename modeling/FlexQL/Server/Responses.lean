import FlexQL.Lib.Framing
import FlexQL.Lib.TextLemmas
import FlexQL.Server.Wire
import Mathlib.Data.Bool.AllAny

/-!
# Responses on the wire

A response is a sequence of lines that ends with the end marker. The server sends such responses,
and the client reads the bytes of a connection as such, wherever they are cut.
-/

namespace FlexQL.Wire

open Text Framing

variable {σ : Type} {exec : σ → Statement → σ × Reply}

/-! ## Lines -/

/-- A line with its newline. -/
abbrev Line : Text → Prop := Block fun b => b = ch '\n'

/-- The client takes the line for the end marker. -/
def isEnd (line : Text) : Bool := trim isSpace line = str "END"

/-- The client takes the line for an error. -/
def isError (line : Text) : Bool := (str "ERROR:").isPrefixOf (trim isSpace line)

/-- Lines up to the first end marker. -/
abbrev Response : Text → Prop := Message Line isEnd

theorem line_of_not_mem {line : Text} (h : ch '\n' ∉ line) : Line (line ++ [ch '\n']) := by
  refine .of_append ?_ (by simp)
  intro b hb
  exact decide_eq_false fun heq => h (heq ▸ hb)

theorem Line.newline_mem {line : Text} (h : Line line) : ch '\n' ∈ line := by
  obtain ⟨b, hb, hmark⟩ := h.exists_mark
  simpa [of_decide_eq_true hmark] using hb

theorem trim_line (line : Text) : trim isSpace (line ++ [ch '\n']) = trim isSpace line :=
  trim_append_of_pos line (by decide)

/-! ## The client -/

/-- The call has read the given lines. -/
structure HasRead (k : Call) (lines : List Text) : Prop where
  isLine : ∀ line ∈ lines, Line line
  consumed : k.consumed = lines.flatten
  errorSeen : k.errorSeen = lines.any isError

theorem errorSeen_readLine (k : Call) (line : Text) :
    (k.readLine line).errorSeen = (k.errorSeen || (str "ERROR:").isPrefixOf line) := by
  unfold Call.readLine
  split
  · rename_i h
    simp [h]
  · rename_i h
    split
    · split <;> simp [h]
    · simp [h]

theorem consumed_readLine (k : Call) (line : Text) : (k.readLine line).consumed = k.consumed := by
  unfold Call.readLine
  split
  · rfl
  · split
    · split <;> rfl
    · rfl

/-- The loop over the lines in the accumulator reads up to the end marker, or up to the last
newline. -/
theorem readLines_spec {fuel : ℕ} {acc acc' : Text} {k k' : Call} {ended : Bool} {lines : List Text}
    (hfuel : acc.length ≤ fuel) (hk : HasRead k lines) (hlines : ∀ line ∈ lines, isEnd line = false)
    (h : readLines fuel acc k = (acc', k', ended)) :
    ∃ lines', HasRead k' lines' ∧ k.consumed ++ acc = k'.consumed ++ acc' ∧
      (ended = true → Block isEnd lines') ∧
      (ended = false → (∀ line ∈ lines', isEnd line = false) ∧ ch '\n' ∉ acc') := by
  induction fuel generalizing acc k lines with
  | zero =>
    obtain rfl : acc = [] := List.length_eq_zero_iff.mp (Nat.le_zero.mp hfuel)
    cases h
    exact ⟨lines, hk, rfl, by simp, fun _ => ⟨hlines, by simp⟩⟩
  | succ fuel ih =>
    rw [readLines] at h
    cases hcut : cut (ch '\n') acc with
    | none =>
      simp only [hcut] at h
      cases h
      exact ⟨lines, hk, rfl, by simp, fun _ => ⟨hlines, cut_eq_none.mp hcut⟩⟩
    | some r =>
      obtain ⟨line, rest⟩ := r
      obtain ⟨rfl, hline⟩ := cut_eq_some.mp hcut
      have hall : ∀ l ∈ lines ++ [line ++ [ch '\n']], Line l := by
        intro l hl
        rcases List.mem_append.mp hl with hl | hl
        · exact hk.isLine l hl
        · rw [List.mem_singleton.mp hl]
          exact line_of_not_mem hline
      simp only [hcut] at h
      split at h
      · rename_i hend
        cases h
        refine ⟨lines ++ [line ++ [ch '\n']], ⟨hall, ?_, ?_⟩, ?_, ?_, by simp⟩
        · simp [hk.consumed]
        · have : isError (line ++ [ch '\n']) = false := by
            rw [isError, trim_line, hend]
            decide
          simp [hk.errorSeen, this]
        · simp
        · intro _
          refine Block.of_append hlines ?_
          rw [isEnd, trim_line, hend]
          decide
      · rename_i hend
        have hread : HasRead
            (Call.readLine { k with consumed := k.consumed ++ (line ++ [ch '\n']) }
              (trim isSpace line)) (lines ++ [line ++ [ch '\n']]) := by
          refine ⟨hall, ?_, ?_⟩
          · simp [consumed_readLine, hk.consumed]
          · simp [errorSeen_readLine, hk.errorSeen, isError, trim_line]
        have hlines' : ∀ l ∈ lines ++ [line ++ [ch '\n']], isEnd l = false := by
          intro l hl
          rcases List.mem_append.mp hl with hl | hl
          · exact hlines l hl
          · rw [List.mem_singleton.mp hl, isEnd, trim_line]
            simpa using hend
        have hlen : rest.length ≤ fuel := by
          simp only [List.length_append, List.length_cons] at hfuel
          omega
        obtain ⟨lines', hk', hbytes, hended, hopen⟩ := ih hlen hread hlines' h
        refine ⟨lines', hk', ?_, hended, hopen⟩
        rw [← hbytes, consumed_readLine]
        simp

/-! ## The server -/

/-- The executor hands out rows without newlines, and errors without newlines and zero bytes. -/
structure Clean (exec : σ → Statement → σ × Reply) : Prop where
  rows : ∀ db stmt, ∀ row ∈ (exec db stmt).2.rows, ∀ v ∈ row, ch '\n' ∉ v
  err : ∀ db stmt, ch '\n' ∉ (exec db stmt).2.err ∧ 0 ∉ (exec db stmt).2.err

/-- The response contains an error line. -/
def hasErrorLine (response : Text) : Bool :=
  (getLines (ch '\n') response).any fun line => (str "ERROR:").isPrefixOf line

/-- What the client takes for the lines of a response: errors, and one end marker. -/
structure HasLines (bytes : Text) (lines : List Text) : Prop where
  isLine : ∀ line ∈ lines, Line line
  bytes_eq : bytes = lines.flatten
  nonzero : ∀ b ∈ bytes, b ≠ 0
  error : lines.any isError = hasErrorLine bytes

theorem hasErrorLine_append {line : Text} (hline : ch '\n' ∉ line) (bytes : Text) :
    hasErrorLine (line ++ [ch '\n'] ++ bytes) =
      ((str "ERROR:").isPrefixOf line || hasErrorLine bytes) := by
  rw [hasErrorLine, List.append_assoc, List.singleton_append, getLines_append hline, List.any_cons]
  rfl

/-- A line in front of others, for which the client and a reader agree whether it is an error. -/
theorem HasLines.cons {line bytes : Text} {lines : List Text} (h : HasLines bytes lines)
    (hline : ∀ b ∈ line, b ≠ ch '\n' ∧ b ≠ 0)
    (herror : isError (line ++ [ch '\n']) = (str "ERROR:").isPrefixOf line) :
    HasLines (line ++ [ch '\n'] ++ bytes) ((line ++ [ch '\n']) :: lines) := by
  have hnewline : ch '\n' ∉ line := fun hmem => (hline _ hmem).1 rfl
  constructor
  · exact List.forall_mem_cons.mpr ⟨line_of_not_mem hnewline, h.isLine⟩
  · rw [List.flatten_cons, h.bytes_eq]
  · rw [List.forall_mem_append, List.forall_mem_append]
    exact ⟨⟨fun b hb => (hline b hb).2, List.forall_mem_singleton.mpr (by decide)⟩, h.nonzero⟩
  · rw [hasErrorLine_append hnewline, List.any_cons, herror, h.error]

theorem hasLines_end : HasLines (str "END\n") [str "END\n"] where
  isLine := by
    intro line hline
    rw [List.mem_singleton.mp hline]
    exact line_of_not_mem (show ch '\n' ∉ str "END" by decide)
  bytes_eq := by simp
  nonzero := List.all_iff_forall_prop.mp (by decide)
  error := by decide

/-- The line of an error is one for the client, and no end marker. -/
theorem isError_error (err : Text) :
    isError (str "ERROR: " ++ err ++ [ch '\n']) = true ∧ isEnd (str "ERROR: " ++ err ++ [ch '\n']) = false := by
  obtain ⟨u, hu⟩ := trim_append_prefix (p := isSpace) (a := ch 'E') (b := ch ':') (str "RROR")
    (ch ' ' :: err) (by decide) (by decide)
  have htrim : trim isSpace (str "ERROR: " ++ err) = str "ERROR:" ++ u := hu
  rw [isError, isEnd, trim_line, htrim]
  exact ⟨List.isPrefixOf_iff_prefix.mpr (List.prefix_append _ _), rfl⟩

/-- The line of a row is neither an error nor an end marker. -/
theorem isError_row (data : Text) :
    isError (str "ROW " ++ data ++ [ch '\n']) = false ∧ isEnd (str "ROW " ++ data ++ [ch '\n']) = false := by
  obtain ⟨u, hu⟩ := trim_append_prefix (p := isSpace) (a := ch 'R') (b := ch 'W') (str "O")
    (ch ' ' :: data) (by decide) (by decide)
  have htrim : trim isSpace (str "ROW " ++ data) = str "ROW" ++ u := hu
  rw [isError, isEnd, trim_line, htrim]
  exact ⟨rfl, rfl⟩

/-- The lines of rows, in front of others. -/
theorem HasLines.rows {rows : List (List Text)} {bytes : Text} {lines : List Text}
    (h : HasLines bytes lines) (hrows : ∀ row ∈ rows, ∀ v ∈ row, ch '\n' ∉ v) :
    HasLines (rows.flatMap serverExecCallback ++ bytes) (rows.map serverExecCallback ++ lines) := by
  induction rows with
  | nil => exact h
  | cons row rows ih =>
    rw [List.forall_mem_cons] at hrows
    have hdata : ∀ b ∈ [ch '\t'].intercalate (row.map cStr), b ≠ ch '\n' ∧ b ≠ 0 := by
      intro b hb
      rcases mem_intercalate hb with rfl | ⟨v, hv, hb⟩
      · decide
      · obtain ⟨w, hw, rfl⟩ := List.mem_map.mp hv
        refine ⟨?_, ne_zero_of_mem_cStr hb⟩
        rintro rfl
        exact hrows.1 w hw (mem_of_mem_cStr hb)
    rw [List.flatMap_cons, List.map_cons, List.append_assoc]
    have hline : ∀ b ∈ str "ROW " ++ [ch '\t'].intercalate (row.map cStr), b ≠ ch '\n' ∧ b ≠ 0 :=
      List.forall_mem_append.mpr ⟨List.all_iff_forall_prop.mp (by decide), hdata⟩
    exact (ih hrows.2).cons hline (isError_row _).1

theorem HasLines.error_line {err bytes : Text} {lines : List Text} (h : HasLines bytes lines)
    (herr : ch '\n' ∉ err ∧ 0 ∉ err) :
    HasLines (str "ERROR: " ++ err ++ [ch '\n'] ++ bytes)
      ((str "ERROR: " ++ err ++ [ch '\n']) :: lines) := by
  refine h.cons ?_ (isError_error err).1
  refine List.forall_mem_append.mpr ⟨List.all_iff_forall_prop.mp (by decide), fun b hb => ⟨?_, ?_⟩⟩
  · rintro rfl
    exact herr.1 hb
  · rintro rfl
    exact herr.2 hb

/-- A reply is lines up to the first end marker. -/
theorem exists_lines_reply {reply : Reply} (hrows : ∀ row ∈ reply.rows, ∀ v ∈ row, ch '\n' ∉ v)
    (herr : ch '\n' ∉ reply.err ∧ 0 ∉ reply.err) :
    ∃ lines, HasLines (replyBytes reply) lines ∧ Block isEnd lines := by
  have hrow : ∀ line ∈ reply.rows.map serverExecCallback, isEnd line = false := by
    intro line hline
    obtain ⟨row, -, rfl⟩ := List.mem_map.mp hline
    exact (isError_row _).2
  by_cases hnone : reply.err = []
  · refine ⟨reply.rows.map serverExecCallback ++ [str "END\n"], ?_, .of_append hrow (by decide)⟩
    rw [replyBytes, if_pos hnone, List.append_nil]
    exact hasLines_end.rows hrows
  · refine ⟨reply.rows.map serverExecCallback ++
      [str "ERROR: " ++ reply.err ++ [ch '\n'], str "END\n"], ?_, ?_⟩
    · rw [replyBytes, if_neg hnone, List.append_assoc]
      exact (hasLines_end.error_line herr).rows hrows
    · rw [List.append_cons]
      refine .of_append ?_ (by decide)
      intro line hline
      rcases List.mem_append.mp hline with hline | hline
      · exact hrow line hline
      · rw [List.mem_singleton.mp hline]
        exact (isError_error _).2

/-- What the server sends for a statement. -/
theorem Clean.exists_lines (h : Clean exec) (db : σ) (sql : Text) :
    ∃ lines, HasLines (respond exec db sql).2 lines ∧ Block isEnd lines := by
  unfold respond
  simp only
  split
  · have hinvalid : ch '\n' ∉ str "Invalid SQL" ∧ 0 ∉ str "Invalid SQL" := by decide
    exact @exists_lines_reply { err := str "Invalid SQL" } (by simp) hinvalid
  · exact exists_lines_reply (h.rows db _) (h.err db _)

theorem Clean.response (h : Clean exec) (db : σ) (sql : Text) : Response (respond exec db sql).2 := by
  obtain ⟨lines, hlines, hblock⟩ := h.exists_lines db sql
  exact ⟨lines, hlines.isLine, hblock, hlines.bytes_eq⟩

end FlexQL.Wire
