import FlexQL.Executor.InsertTexts
import FlexQL.Server.Chunks

/-!
# Delimiters between quotes

The server cuts its stream at semicolons, and `exec_insert` cuts the values of an `INSERT` at
parentheses and commas. None of them looks at quotes, so a string with one of these bytes comes
apart, and a slot of a column keeps 127 bytes of it. An opening parenthesis does no harm.
-/

namespace FlexQL.Executor

open Text Language Table Fallible Runs Wire FlexQL.Parser

/-- The executor as `handle_client` calls it. An exception leaves it. -/
def serverExec (p : Platform) (e : Executor) (stmt : Statement) : Option (Executor × Reply) :=
  match exec p e stmt with
  | .ok (e, ⟨.returned _ err, rows⟩) => some (e, ⟨rows, err.getD []⟩)
  | _ => none

/-- The bytes that `insert_row` stores for a value denote the literal. -/
def Stores (v : Value) : Literal → Prop
  | .number n => v.type = .decimal ∧ v.bits.toInt = n.value
  | .string content => v.type = .varchar ∧ cStr v.bytes = content

/-- The server takes the text for one statement, and `exec_insert` finds the tuples in it and stores
their literals. -/
structure SeesTuples (p : Platform) (e : Executor) (t : Table) (table s : Text)
    (tuples : List (List Literal)) : Prop where
  statements : ∀ chunks, Chunks (s ++ [ch ';']) chunks → (handleClient (serverExec p) e chunks).parsed = [s]
  type_eq : (parse s).type = .insert
  rows : ∃ rows,
    List.Forall₂ (fun tuple row => parseTuple p t.schema tuple = .ok (.ok row))
      (Executor.tuples (parse s).insertStmt.rawValues) rows ∧
    List.Forall₂ (fun row ls => List.Forall₂ Stores row.values ls) rows tuples ∧
    exec p e (parse s) = (run insertStep (t, e.disk) rows).map fun r =>
      (e.setTable (upper table) r.1 r.2, ⟨.returned 0 none, []⟩)

def Literal.Short : Literal → Prop
  | .number _ => True
  | .string content => content.length ≤ 127

/-- No reader cuts the literal, and a slot has room for it. -/
structure Literal.Survives (l : Literal) : Prop where
  comma : l.Without (ch ',')
  paren : l.Without (ch ')')
  semicolon : l.Without (ch ';')
  short : l.Short

variable {p : Platform} {e : Executor} {t : Table} {table s x : Text} {c : UInt8} {l : Literal}
  {ls : List Literal} {tuples : List (List Literal)} {schema : Schema}

/-! ## One statement -/

theorem foldl_feed_of_notMem {σ : Type} {exec : σ → Statement → Option (σ × Reply)} {session : Session σ}
    (hrunning : session.running = true) (hs : ch ';' ∉ s) :
    s.foldl (Session.feed exec) session = { session with accumulator := session.accumulator ++ s } := by
  induction s generalizing session with
  | nil => simp
  | cons b s ih =>
    simp only [List.mem_cons, not_or] at hs
    have hnext : { session with accumulator := session.accumulator ++ [b] }.running = true := hrunning
    rw [List.foldl_cons, Session.feed, if_pos hrunning, if_neg (Ne.symm hs.1), ih hnext hs.2]
    simp

/-- A text without a semicolon is one statement. -/
theorem parsed_of_notMem {σ : Type} {exec : σ → Statement → Option (σ × Reply)} {db : σ} {chunks : List Text}
    (hs : ch ';' ∉ s) (hnul : 0 ∉ s) (h : Chunks (s ++ [ch ';']) chunks) :
    (handleClient exec db chunks).parsed = [s] := by
  have hstream : 0 ∉ s ++ [ch ';'] := by
    rw [List.mem_append, not_or]
    exact ⟨hnul, by decide⟩
  rw [handleClient_eq h hstream, List.foldl_append, foldl_feed_of_notMem rfl hs]
  simp only [List.foldl_cons, List.foldl_nil, Session.feed, if_true, List.nil_append, Session.execute]
  split <;> rfl

/-- No statement has a semicolon in it. -/
theorem notMem_of_parsed {σ : Type} {exec : σ → Statement → Option (σ × Reply)} {db : σ} (hnul : 0 ∉ s)
    (h : ∀ chunks, Chunks (s ++ [ch ';']) chunks → (handleClient exec db chunks).parsed = [s]) :
    ch ';' ∉ s := by
  have hchunks : Chunks (s ++ [ch ';']) ((s ++ [ch ';']).map fun b => [b]) := by
    refine ⟨?_, fun chunk hchunk => ?_⟩
    · rw [← List.flatMap_def, List.flatMap_singleton']
    · obtain ⟨b, -, rfl⟩ := List.mem_map.mp hchunk
      exact ⟨by simp, show 1 ≤ bufferSize by decide⟩
  have hstream : 0 ∉ s ++ [ch ';'] := by
    rw [List.mem_append, not_or]
    exact ⟨hnul, by decide⟩
  have hframed : Session.Framed ([] ++ (s ++ [ch ';'])) ((s ++ [ch ';']).foldl (Session.feed exec) { db := db }) :=
    (Session.framed_init db).foldl_feed _
  have hparsed := h _ hchunks
  rw [handleClient_eq hchunks hstream] at hparsed
  exact hframed.notMem s (by rw [hparsed]; exact List.mem_singleton_self s)

/-- A semicolon can stand in the strings only. -/
theorem notMem_insertTexts (hname : ∀ b ∈ table, isNameByte b = true)
    (hls : ∀ ls ∈ tuples, ∀ l ∈ ls, l.Without (ch ';')) (hs : s ∈ insertTexts table tuples) : ch ';' ∉ s := by
  have hwhite : ∀ g ∈ whites, ch ';' ∉ g := fun g hg => notMem_whites (by decide) hg
  have htuples : tuplesTexts tuples ≤ within fun b => b ≠ ch ';' := by
    apply sepBy_le_within
    · rintro _ rfl b hb
      obtain rfl : b = ch ',' := List.mem_singleton.mp hb
      decide
    · intro m hm x hx b hb hsemicolon
      obtain ⟨ls, hmem, rfl⟩ := List.mem_map.mp hm
      obtain ⟨g, hg, _, ⟨o, rfl, _, ⟨y, hy, _, ⟨k, rfl, g', hg', rfl⟩, rfl⟩, rfl⟩, rfl⟩ := hx
      have hvalues : ch ';' ∉ y :=
        notMem_valuesTexts (by decide) (by decide) (by decide) (by decide) (by decide) (by decide) (hls ls hmem) hy
      have hopen : ch ';' ∉ str "(" := by decide
      have hclose : ch ';' ∉ str ")" := by decide
      simp [hsemicolon, hwhite g hg, hwhite g' hg', hvalues, hopen, hclose] at hb
  simp only [insertTexts, mul_assoc, mem_mul] at hs
  obtain ⟨g, hg, _, ⟨k, rfl, _, ⟨g₁, hg₁, _, ⟨k', rfl, _, ⟨g₂, hg₂, _, ⟨w, hw, _, ⟨g₃, hg₃, _, ⟨k'', rfl, v, hv, rfl⟩,
    rfl⟩, rfl⟩, rfl⟩, rfl⟩, rfl⟩, rfl⟩, rfl⟩ := hs
  obtain rfl : w = table := hw
  have htable : ch ';' ∉ w := fun h => absurd (hname _ h) (by decide)
  have hvalues : ch ';' ∉ v := fun h => htuples hv _ h rfl
  have hinsert : ch ';' ∉ str "INSERT" := by decide
  have hinto : ch ';' ∉ str "INTO" := by decide
  have hword : ch ';' ∉ str "VALUES" := by decide
  simp [hwhite, hg, hg₁.1, hg₂.1, hg₃.1, htable, hvalues, hinsert, hinto, hword]

/-- The bytes of a string stand in the text. -/
theorem mem_of_mem_content {content : Text} (hs : s ∈ insertTexts table tuples) (hls : ls ∈ tuples)
    (hl : .string content ∈ ls) (hc : c ∈ content) : c ∈ s := by
  obtain ⟨a, -, v, hv, rfl⟩ := hs
  obtain ⟨x, hx, hxv⟩ := exists_infix_of_mem_sepBy (List.mem_map_of_mem hls) hv
  obtain ⟨g, -, _, ⟨o, -, _, ⟨y, hy, k, -, rfl⟩, rfl⟩, rfl⟩ := hx
  obtain ⟨z, hz, hzy⟩ := exists_infix_of_mem_sepBy (List.mem_map_of_mem hl) hy
  obtain ⟨g', -, _, ⟨w, rfl, g'', -, rfl⟩, rfl⟩ := hz
  have hliteral : c ∈ g' ++ ((Literal.string content).text ++ g'') := by
    simp [Literal.text, quoted, hc]
  have htuple : c ∈ g ++ (o ++ (y ++ k)) :=
    List.mem_append_right g (List.mem_append_right o (List.mem_append_left k (hzy.subset hliteral)))
  exact List.mem_append_right a (hxv.subset htuple)

/-! ## What is stored -/

theorem stores_value (hshort : l.Short) (hnul : l.Without 0) : Stores (l.value p) l := by
  cases l with
  | number n =>
    have hdenotes := n.denotes
    simp only [intLiteral, Option.ite_none_right_eq_some, Option.some.injEq] at hdenotes
    obtain ⟨⟨-, -, hlow, hhigh⟩, hn⟩ := hdenotes
    rw [hn] at hlow hhigh
    exact ⟨rfl, BitVec.toInt_ofInt_eq_self (by decide) hlow hhigh⟩
  | string content =>
    refine ⟨rfl, ?_⟩
    change cStr (Value.strBytes content) = content
    rw [cStr_strBytes, cStr_of_nonzero fun b hb hzero => hnul (hzero ▸ hb), List.take_of_length_le hshort]

/-- A stored string is a part of what was read. -/
theorem of_stores_string {v : Value} {content : Text} (h : Stores v (.string content)) :
    v.type = .varchar ∧ content.length ≤ 127 ∧ ∀ c ∈ content, c ∈ v.str := by
  obtain ⟨htype, hcontent⟩ := h
  rw [Value.bytes, htype] at hcontent
  change cStr (Value.strBytes v.str) = content at hcontent
  rw [cStr_strBytes] at hcontent
  subst hcontent
  exact ⟨htype, List.length_take_le _ _, fun c hc => mem_of_mem_cStr (List.mem_of_mem_take hc)⟩

theorem mem_of_mem_unquote (h : c ∈ unquote s) : c ∈ s := by
  unfold unquote at h
  split at h
  · exact List.mem_of_mem_drop (List.mem_of_mem_take h)
  · exact h

/-- A string is read from a text that has its bytes. -/
theorem mem_of_parseValue {type : ColumnType} {v : Value} (h : parseValue p type s = .ok v)
    (htype : v.type = .varchar) (hc : c ∈ v.str) : c ∈ s := by
  cases type with
  | varchar =>
    cases h
    exact mem_of_mem_trim (mem_of_mem_unquote hc)
  | _ =>
    obtain ⟨w, -, h⟩ := Fallible.bind_eq_ok h
    cases h
    cases htype

theorem exists_of_parseValues {vals : List Text} {vs : List Value} (h : parseValues p schema vals = .ok (.ok vs))
    {v : Value} (hv : v ∈ vs) : ∃ d ∈ schema, ∃ val ∈ vals, parseValue p d.type val = .ok v := by
  induction vals generalizing schema vs with
  | nil =>
    cases schema <;> cases h <;> cases hv
  | cons val vals ih =>
    cases schema with
    | nil => cases h
    | cons d schema =>
      cases hval : parseValue p d.type val with
      | error exn => simp [parseValues, hval] at h
      | ok w =>
        simp only [parseValues, hval] at h
        obtain ⟨r, hr, h⟩ := Fallible.bind_eq_ok h
        cases r with
        | error exn => cases h
        | ok ws =>
          cases h
          rcases List.mem_cons.mp hv with rfl | hv
          · exact ⟨d, List.mem_cons_self, val, List.mem_cons_self, hval⟩
          · obtain ⟨d', hd', val', hval', hread⟩ := ih hr hv
            exact ⟨d', List.mem_cons_of_mem _ hd', val', List.mem_cons_of_mem _ hval', hread⟩

theorem notMem_of_mem_tuplesFrom {fuel : ℕ} {raw tuple : Text} (h : tuple ∈ tuplesFrom fuel raw) :
    ch ')' ∉ tuple := by
  induction fuel generalizing raw with
  | zero => cases h
  | succ fuel ih =>
    unfold tuplesFrom at h
    cases hafter : after (ch '(') raw with
    | none => simp [hafter] at h
    | some rest =>
      cases hcut : cut (ch ')') rest with
      | none => simp [hafter, hcut] at h
      | some r =>
        simp only [hafter, hcut, List.mem_cons] at h
        rcases h with rfl | h
        · exact (cut_eq_some.mp hcut).2
        · exact ih h

/-- No string that is stored has a comma or a closing parenthesis. -/
theorem notMem_of_parseTuple {raw tuple : Text} {row : Row} (htuple : tuple ∈ Executor.tuples raw)
    (hrow : parseTuple p schema tuple = .ok (.ok row)) {v : Value} (hv : v ∈ row.values)
    (htype : v.type = .varchar) : ch ',' ∉ v.str ∧ ch ')' ∉ v.str := by
  obtain ⟨r, hr, hrow⟩ := Fallible.bind_eq_ok hrow
  cases r with
  | error exn => cases hrow
  | ok vs =>
    cases hrow
    obtain ⟨d, -, val, hval, hread⟩ := exists_of_parseValues hr hv
    have hpiece := mem_getLines hval
    refine ⟨fun hc => hpiece.1 (mem_of_parseValue hread htype hc), fun hc => ?_⟩
    exact notMem_of_mem_tuplesFrom htuple (hpiece.2 _ (mem_of_parseValue hread htype hc))

/-! ## The main result -/

theorem seesTuples_of_survives (hname : ∀ b ∈ table, isNameByte b = true) (hne : table ≠ [])
    (htuples : tuples ≠ []) (hfits : ∀ ls ∈ tuples, List.Forall₂ Literal.Fits t.schema ls)
    (ht : e.tables (upper table) = some t) (hs : s ∈ insertTexts table tuples) (hnul : 0 ∉ s)
    (hsurvives : ∀ ls ∈ tuples, ∀ l ∈ ls, l.Survives) : SeesTuples p e t table s tuples := by
  obtain ⟨raw, hparse, hvalues⟩ := parse_insertTexts hname hne htuples
    (fun ls hls l hl => (hsurvives ls hls l hl).paren) hs
  have hrows := parseTuples_valuesTexts (p := p) hfits (fun ls hls l hl => (hsurvives ls hls l hl).comma) hvalues
  have hzero : ∀ ls ∈ tuples, ∀ l ∈ ls, l.Without 0 := by
    intro ls hls l hl
    cases l with
    | number n => exact trivial
    | string content => exact fun hc => hnul (mem_of_mem_content hs hls hl hc)
  refine ⟨fun chunks h => ?_, by rw [hparse], tuples.map (rowOf p), ?_, ?_, ?_⟩
  · exact parsed_of_notMem (notMem_insertTexts hname (fun ls hls l hl => (hsurvives ls hls l hl).semicolon) hs)
      hnul h
  · rw [hparse]
    exact List.forall₂_map_right_iff.mpr hrows
  · rw [List.forall₂_map_left_iff, List.forall₂_same]
    intro ls hls
    rw [rowOf, List.forall₂_map_left_iff, List.forall₂_same]
    exact fun l hl => stores_value (hsurvives ls hls l hl).short (hzero ls hls l hl)
  · rw [hparse]
    exact exec_insert_of_rows ht hrows

/-- A string that is stored has none of the delimiters in it. -/
theorem SeesTuples.survives (hs : s ∈ insertTexts table tuples) (hnul : 0 ∉ s)
    (h : SeesTuples p e t table s tuples) : ∀ ls ∈ tuples, ∀ l ∈ ls, l.Survives := by
  intro ls hls l hl
  obtain ⟨rows, hrows, hstores, -⟩ := h.rows
  cases l with
  | number n => exact ⟨trivial, trivial, trivial, trivial⟩
  | string content =>
    obtain ⟨row, hrow, hvalues⟩ := exists_left_of_forall₂ hstores hls
    obtain ⟨v, hv, hstored⟩ := exists_left_of_forall₂ hvalues hl
    obtain ⟨tuple, htuple, hparse⟩ := exists_left_of_forall₂ hrows hrow
    obtain ⟨htype, hshort, hmem⟩ := of_stores_string hstored
    obtain ⟨hcomma, hparen⟩ := notMem_of_parseTuple htuple hparse hv htype
    have hsemicolon := notMem_of_parsed hnul h.statements
    exact ⟨fun hc => hcomma (hmem _ hc), fun hc => hparen (hmem _ hc),
      fun hc => hsemicolon (mem_of_mem_content hs hls hl hc), hshort⟩

/-- The server and the executor see the statement, its tuples and its literals exactly when no string
has a comma, a closing parenthesis or a semicolon in it, and none is longer than 127 bytes. -/
theorem seesTuples_iff (p : Platform) (e : Executor) (t : Table) (table s : Text)
    (tuples : List (List Literal)) (hname : ∀ b ∈ table, isNameByte b = true) (hne : table ≠ [])
    (htuples : tuples ≠ []) (hfits : ∀ ls ∈ tuples, List.Forall₂ Literal.Fits t.schema ls)
    (ht : e.tables (upper table) = some t) (hs : s ∈ insertTexts table tuples) (hnul : 0 ∉ s) :
    SeesTuples p e t table s tuples ↔ ∀ ls ∈ tuples, ∀ l ∈ ls, l.Survives :=
  ⟨fun h => h.survives hs hnul, seesTuples_of_survives hname hne htuples hfits ht hs hnul⟩

theorem seesTuples_parenthesis :
    ∃ e t, runNew [str "CREATE TABLE T (N VARCHAR)"] = .ok e ∧ e.tables (str "T") = some t ∧
      SeesTuples .reference e t (str "T") (str "INSERT INTO T VALUES ('a(b')") [[.string (str "a(b")]] := by
  have hend : (do
      let e ← runNew [str "CREATE TABLE T (N VARCHAR)"]
      return (e.tables (str "T")).map Table.schema) =
      (.ok (some [⟨str "N", .varchar⟩]) : Except Fault (Option Schema)) := by decide
  obtain ⟨e, he, hend⟩ := bind_eq_ok hend
  obtain ⟨t, ht, hschema⟩ := Option.map_eq_some_iff.mp (Except.ok.inj hend)
  have hfits : ∀ ls ∈ [[Literal.string (str "a(b")]], List.Forall₂ Literal.Fits t.schema ls := by
    rw [hschema, List.forall_mem_singleton]
    exact .cons rfl .nil
  refine ⟨e, t, he, ht, ?_⟩
  refine (seesTuples_iff .reference e t (str "T") _ [[.string (str "a(b")]] (by decide +kernel) (by decide)
    (by decide) hfits ht (printInsert_mem (str "T") (by decide)) (by decide)).mpr ?_
  rw [List.forall_mem_singleton, List.forall_mem_singleton]
  exact ⟨by decide, by decide, by decide, show 3 ≤ 127 by decide⟩

/-- The comma makes a second value, for which there is no column. -/
theorem not_seesTuples_comma :
    ∃ e t, runNew [str "CREATE TABLE T (N VARCHAR)"] = .ok e ∧ e.tables (str "T") = some t ∧
      t.schema = [⟨str "N", .varchar⟩] ∧
      str "INSERT INTO T VALUES ('a,b')" ∈ insertTexts (str "T") [[.string (str "a,b")]] ∧
      exec .reference e (parse (str "INSERT INTO T VALUES ('a,b')")) = .error .outOfBounds ∧
      ¬ SeesTuples .reference e t (str "T") (str "INSERT INTO T VALUES ('a,b')") [[.string (str "a,b")]] := by
  have hend : (do
      let e ← runNew [str "CREATE TABLE T (N VARCHAR)"]
      return ((e.tables (str "T")).map Table.schema,
        (exec .reference e (parse (str "INSERT INTO T VALUES ('a,b')"))).map Prod.snd)) =
      (.ok (some [⟨str "N", .varchar⟩], .error .outOfBounds) :
        Except Fault (Option Schema × Except Fault Outcome)) := by decide
  obtain ⟨e, he, hend⟩ := bind_eq_ok hend
  simp only [Pure.pure, Except.pure, Except.ok.injEq, Prod.mk.injEq] at hend
  obtain ⟨t, ht, hschema⟩ := Option.map_eq_some_iff.mp hend.1
  have htext : str "INSERT INTO T VALUES ('a,b')" ∈ insertTexts (str "T") [[.string (str "a,b")]] :=
    printInsert_mem (str "T") (by decide)
  refine ⟨e, t, he, ht, hschema, htext, map_eq_error hend.2, fun h => ?_⟩
  have hsurvives := h.survives htext (by decide) _ List.mem_cons_self _ List.mem_cons_self
  exact hsurvives.comma (by decide)

end FlexQL.Executor
