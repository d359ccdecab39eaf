import FlexQL.Lib.TextLemmas
import FlexQL.Server.Wire

/-!
# Rows on the wire

The server joins the values of a row with tabs and ends it with a newline, without escaping
anything. The client cuts at newlines, trims the line and cuts it at tabs again. A row survives
this when no value holds one of the two bytes and the line does not end in white space before its
newline.
-/

namespace FlexQL.Wire

open Text

/-- The calls of the callback of the client for bytes that it receives. -/
def callbackCalls (bytes : Text) : List (List Text) := (readLines bytes.length bytes {}).2.1.rows

/-- The client gets the row that the server sends. -/
def RoundTrips (row : List Text) : Prop := callbackCalls (serverExecCallback row) = [row]

/-- A value that neither end takes for something else. -/
def Unframed (v : Text) : Prop := ch '\t' ∉ v ∧ ch '\n' ∉ v

variable {row : List Text} {v s line : Text} {k : Call}

/-! ## What the callback can get -/

theorem readLine_unframed (hline : ch '\n' ∉ line) (hk : ∀ row ∈ k.rows, ∀ v ∈ row, Unframed v) :
    ∀ row ∈ (k.readLine line).rows, ∀ v ∈ row, Unframed v := by
  unfold Call.readLine
  split
  · exact hk
  · split
    · split
      · exact hk
      · intro row hrow v hv
        rcases List.mem_append.mp hrow with hrow | hrow
        · exact hk row hrow v hv
        · rw [List.mem_singleton] at hrow
          subst hrow
          obtain ⟨piece, hpiece, rfl⟩ := List.mem_map.mp hv
          obtain ⟨htab, hsub⟩ := mem_getLines hpiece
          refine ⟨fun h => htab (mem_of_mem_cStr h), fun h => hline ?_⟩
          exact List.mem_of_mem_drop (hsub _ (mem_of_mem_cStr h))
    · exact hk

/-- The values that the callback gets hold neither a tab nor a newline. -/
theorem readLines_unframed (fuel : ℕ) (accumulator : Text)
    (hk : ∀ row ∈ k.rows, ∀ v ∈ row, Unframed v) :
    ∀ row ∈ (readLines fuel accumulator k).2.1.rows, ∀ v ∈ row, Unframed v := by
  induction fuel generalizing accumulator k with
  | zero => exact hk
  | succ fuel ih =>
    unfold readLines
    split
    · exact hk
    · rename_i line rest hcut
      obtain ⟨-, hline⟩ := cut_eq_some.mp hcut
      simp only
      split
      · exact hk
      · refine ih rest (readLine_unframed ?_ hk)
        exact fun h => hline (mem_of_mem_trim h)

theorem RoundTrips.unframed (h : RoundTrips row) : ∀ v ∈ row, Unframed v := by
  have hvalues := readLines_unframed (k := {}) (serverExecCallback row).length
    (serverExecCallback row) (by simp)
  have hrows : (readLines (serverExecCallback row).length (serverExecCallback row) {}).2.1.rows =
    [row] := h
  rw [hrows] at hvalues
  exact hvalues row (List.mem_singleton.mpr rfl)

/-! ## One line -/

/-- The values of a row as they stand on the line. -/
def joined (row : List Text) : Text := [ch '\t'].intercalate row

/-- The last value stands behind nothing or behind a tab. -/
theorem joined_append (row : List Text) (v : Text) :
    ∃ pre, joined (row ++ [v]) = pre ++ v ∧ (pre = [] ∨ pre.getLast? = some (ch '\t')) := by
  induction row with
  | nil => exact ⟨[], by simp [joined], Or.inl rfl⟩
  | cons u row ih =>
    obtain ⟨pre, hpre, hlast⟩ := ih
    refine ⟨u ++ [ch '\t'] ++ pre, ?_, Or.inr ?_⟩
    · simp only [joined, List.cons_append] at hpre ⊢
      rw [List.intercalate_cons_of_ne_nil (by simp), hpre]
      simp only [List.append_assoc]
    · rw [List.getLast?_append]
      rcases hlast with rfl | hlast
      · simp
      · simp [hlast]

/-- The last byte of a line, when it is no white space, is that of the last value. -/
theorem getLast?_joined {b : UInt8} (hb : isSpace b = false) :
    (joined row).getLast? = some b ↔ ∃ v, row.getLast? = some v ∧ v.getLast? = some b := by
  rcases List.eq_nil_or_concat row with rfl | ⟨row, v, rfl⟩
  · simp [joined]
  · obtain ⟨pre, hpre, hlast⟩ := joined_append row v
    simp only [List.concat_eq_append, hpre, List.getLast?_append, List.getLast?_singleton,
      Option.some_or, Option.some.injEq, exists_eq_left']
    cases hv : v.getLast? with
    | some c => simp
    | none =>
      simp only [Option.none_or, reduceCtorEq, iff_false]
      rcases hlast with rfl | hlast
      · simp
      · rw [hlast]
        rintro ⟨⟩
        simp [isSpace, ch] at hb

theorem map_cStr (h : ∀ v ∈ row, ∀ b ∈ v, b ≠ 0) : row.map cStr = row := by
  conv_rhs => rw [← List.map_id row]
  exact List.map_congr_left fun v hv => cStr_of_nonzero (h v hv)

theorem serverExecCallback_eq (hnul : ∀ v ∈ row, ∀ b ∈ v, b ≠ 0) :
    serverExecCallback row = str "ROW " ++ joined row ++ [ch '\n'] := by
  rw [serverExecCallback, map_cStr hnul, joined]

theorem readLines_nil (fuel : ℕ) (k : Call) : readLines fuel [] k = ([], k, false) := by
  cases fuel <;> rfl

/-- What was erased before does not matter to a line. -/
theorem readLine_consumed (bytes line : Text) :
    (Call.readLine { consumed := bytes } line).rows = (Call.readLine {} line).rows := by
  unfold Call.readLine
  split
  · rfl
  · split <;> rfl

/-- Only a line that starts like a row reaches the callback. -/
theorem readLine_rows (h : (Call.readLine {} line).rows = [row]) :
    ∃ data, line = str "ROW " ++ data ∧ (getLines (ch '\t') data).map cStr = row := by
  unfold Call.readLine at h
  split at h
  · simp at h
  · split at h
    · rename_i hrow
      obtain ⟨data, rfl⟩ := List.isPrefixOf_iff_prefix.mp hrow
      refine ⟨data, rfl, ?_⟩
      simpa [str] using h
    · simp at h

theorem readLine_row (data : Text) :
    (Call.readLine {} (str "ROW " ++ data)).rows = [(getLines (ch '\t') data).map cStr] := by
  have hrow : (str "ROW ").isPrefixOf (str "ROW " ++ data) = true :=
    List.isPrefixOf_iff_prefix.mpr (List.prefix_append _ _)
  have herror : (str "ERROR:").isPrefixOf (str "ROW " ++ data) = false := rfl
  simp only [Call.readLine, herror, hrow, Bool.false_eq_true, if_false, if_true, List.nil_append]
  rfl

/-- The client sees one line, without the white space at its end. -/
theorem callbackCalls_eq (hnul : ∀ v ∈ row, ∀ b ∈ v, b ≠ 0) (hrow : ∀ v ∈ row, Unframed v) :
    callbackCalls (serverExecCallback row) =
      (Call.readLine {} (dropEnd isSpace (str "ROW " ++ joined row))).rows := by
  have hline : ch '\n' ∉ str "ROW " ++ joined row := by
    intro h
    rcases List.mem_append.mp h with h | h
    · revert h
      decide
    · rcases mem_intercalate h with h | ⟨v, hv, h⟩
      · revert h
        decide
      · exact (hrow v hv).2 h
  have hcut : cut (ch '\n') (str "ROW " ++ joined row ++ [ch '\n']) =
      some (str "ROW " ++ joined row, []) := cut_eq_some.mpr ⟨rfl, hline⟩
  have htrim : trim isSpace (str "ROW " ++ joined row) =
      dropEnd isSpace (str "ROW " ++ joined row) := rfl
  rw [callbackCalls, serverExecCallback_eq hnul, List.length_append, List.length_singleton]
  simp only [readLines, hcut, htrim]
  split
  · rename_i hend
    rw [hend]
    rfl
  · rw [readLines_nil]
    exact readLine_consumed _ _

theorem roundTrips_iff_joined (hnul : ∀ v ∈ row, ∀ b ∈ v, b ≠ 0) (hrow : ∀ v ∈ row, Unframed v) :
    RoundTrips row ↔ ∃ b, (joined row).getLast? = some b ∧ isSpace b = false := by
  rw [RoundTrips, callbackCalls_eq hnul hrow]
  constructor
  · intro h
    obtain ⟨y, hy, hlines⟩ := readLine_rows h
    have hpre : y <+: joined row := by
      have := hy ▸ dropEnd_isPrefix isSpace (str "ROW " ++ joined row)
      exact (List.prefix_append_right_inj _).mp this
    have hpieces : (getLines (ch '\t') y).map cStr = getLines (ch '\t') y := by
      refine map_cStr fun piece hpiece b hb => ?_
      rcases mem_intercalate (hpre.subset ((mem_getLines hpiece).2 b hb)) with rfl | ⟨v, hv, hbv⟩
      · decide
      · exact hnul v hv b hbv
    rw [hpieces] at hlines
    have hlast : ∀ b, (str "ROW " ++ y).getLast? = some b → isSpace b = false := by
      intro b hb
      rw [← hy] at hb
      exact getLast?_dropEnd hb
    have hne : y ≠ [] := by
      rintro rfl
      exact absurd (hlast 32 (by decide)) (by decide)
    obtain ⟨b, hb⟩ : ∃ b, y.getLast? = some b := ⟨_, List.getLast?_eq_some_getLast hne⟩
    have hspace := hlast b (by rw [List.getLast?_append, hb, Option.some_or])
    have hjoined : joined row = y := by
      rw [← hlines]
      refine intercalate_getLines hne ?_
      rw [hb]
      rintro ⟨⟩
      simp [isSpace, ch] at hspace
    exact ⟨b, hjoined ▸ hb, hspace⟩
  · rintro ⟨b, hb, hspace⟩
    have hline : dropEnd isSpace (str "ROW " ++ joined row) = str "ROW " ++ joined row := by
      apply dropEnd_eq_self
      rw [List.getLast?_append, hb, Option.some_or]
      rintro x ⟨⟩
      exact hspace
    have hne : row ≠ [] := by
      rintro rfl
      simp [joined] at hb
    have hlines : getLines (ch '\t') (joined row) = row := by
      refine getLines_intercalate (fun v hv => (hrow v hv).1) hne ?_ ?_
      · rw [show [ch '\t'].intercalate row = joined row from rfl, hb]
        simp
      · rw [show [ch '\t'].intercalate row = joined row from rfl, hb]
        rintro ⟨⟩
        simp [isSpace, ch] at hspace
    rw [hline, readLine_row, hlines, map_cStr hnul]

/-- A row without zero bytes comes back from the client exactly when no value holds a tab or a
newline, and the last value is not empty and does not end in white space. -/
theorem roundTrips_iff (row : List Text) (hnul : ∀ v ∈ row, ∀ b ∈ v, b ≠ 0) :
    RoundTrips row ↔ (∀ v ∈ row, Unframed v) ∧
      ∃ v b, row.getLast? = some v ∧ v.getLast? = some b ∧ isSpace b = false := by
  constructor
  · intro h
    have hrow := h.unframed
    obtain ⟨b, hb, hspace⟩ := (roundTrips_iff_joined hnul hrow).mp h
    obtain ⟨v, hv, hvb⟩ := (getLast?_joined hspace).mp hb
    exact ⟨hrow, v, b, hv, hvb, hspace⟩
  · rintro ⟨hrow, v, b, hv, hvb, hspace⟩
    exact (roundTrips_iff_joined hnul hrow).mpr ⟨b, (getLast?_joined hspace).mpr ⟨v, hv, hvb⟩, hspace⟩

/-- A number, an empty text and a text with a blank in front. -/
theorem roundTrips_number_and_text : RoundTrips [str "-7", [], str " a b"] :=
  (roundTrips_iff _ (by decide +kernel)).mpr ⟨by unfold Unframed; decide, str " a b", ch 'b', by decide⟩

/-- An empty text at the end of a row is lost. -/
theorem not_roundTrips_empty : ¬ RoundTrips [str "7", []] := by
  unfold RoundTrips
  decide

end FlexQL.Wire
