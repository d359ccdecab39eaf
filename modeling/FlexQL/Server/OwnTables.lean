import FlexQL.Executor.Refinement
import FlexQL.Server.Linearised

/-!
# Clients with tables of their own

When no table gets rows from two connections, nobody can be overtaken. Then the workers may take turns as
they like: the executor stands for the database to which the clients' rows have been added.
-/

namespace FlexQL

open Text Runs Traces Fallible Executor Server

namespace SharedExecutor

variable {p : Platform} {e : Executor} {n : ℕ} {s s' : SharedExecutor} {w : ℕ}

/-- No table gets rows from two connections. -/
def OwnTables (s : SharedExecutor) : Prop := ∀ a ∈ s.begun, ∀ b ∈ s.begun, a.2.1 = b.2.1 → a.1 = b.1

instance (s : SharedExecutor) : Decidable s.OwnTables :=
  inferInstanceAs (Decidable (∀ a ∈ s.begun, ∀ b ∈ s.begun, a.2.1 = b.2.1 → a.1 = b.1))

/-- A call that has not returned is the one its connection's worker is in. -/
theorem Sound.call_eq (h : Sound p e n s) {i : ℕ} {sql name : Text} {t : Table} {k : ℕ} {call : Call}
    (hsql : statement s.serving w = some (i, sql)) (ht : s.executor.tables name = some t)
    (hk : (s.calls name)[k]? = some call) (hrest : call.rest t.schema ≠ [])
    (hown : ∀ j row, (j, name, row) ∈ s.begun → j = i) :
    ∃ x, s.insertions w = some x ∧ x.tableName = name ∧ x.call = some k := by
  obtain ⟨w', x, hx, rfl, hcall⟩ := h.owned name t k call ht hk hrest
  obtain ⟨j, sql', hsql', -, hbegun⟩ := h.inserting w' x hx
  obtain ⟨row, hrow⟩ := hbegun k hcall
  obtain rfl := hown j row hrow
  obtain rfl := statement_unique h.serving hsql hsql'
  exact ⟨x, hx, rfl, hcall⟩

/-- Nobody is there to be overtaken. -/
theorem Sound.orderly (h : Sound p e n s) {ev : Event} (hstep : SharedExecutor.step p s ev = .ok s')
    (hown : s'.OwnTables) : s.Orderly ev := by
  cases steps_of_step hstep with
  | serving => trivial
  | refuse => trivial
  | enter => trivial
  | leave => trivial
  | @insertRow _ i sql name tuple ts c t row rid hsql hx ht hsettled hrow hrid =>
    intro x hx'
    cases hx.symm.trans hx'
    intro t' ht' call hcall ev hev
    cases ht.symm.trans ht'
    obtain ⟨k, hk⟩ := List.mem_iff_getElem?.mp hcall
    have hsole : ∀ j row', (j, name, row') ∈ s.begun → j = i := fun j row' hmem =>
      hown _ (List.mem_append_left _ hmem) _ (List.mem_append_right _ List.mem_cons_self) rfl
    obtain ⟨x, hx'', -, hcall'⟩ := h.call_eq hsql ht hk (List.ne_nil_of_mem hev) hsole
    cases hx.symm.trans hx''
    exact absurd (hsettled k hcall' t ht call hk) (List.ne_nil_of_mem hev)
  | @advance _ k name ts q hx hq =>
    intro x hx' k' hk'
    cases hx.symm.trans hx'
    cases hk'
    intro t ht call hcall ev hev earlier hearlier ev' hev'
    obtain ⟨i, sql, hsql, -, hbegun⟩ := h.inserting _ _ hx
    obtain ⟨row, hrow⟩ := hbegun k rfl
    have hsole : ∀ j row', (j, name, row') ∈ s.begun → j = i := fun j row' hmem => hown _ hmem _ hrow rfl
    obtain ⟨k', hk'⟩ := List.mem_iff_getElem?.mp hearlier
    have hlt : k' < k := by
      have := (List.getElem?_eq_some_iff.mp hk').1
      rw [List.length_take] at this
      omega
    rw [List.getElem?_take_of_lt hlt] at hk'
    obtain ⟨x, hx'', -, hcall'⟩ := h.call_eq hsql ht hk' (List.ne_nil_of_mem hev') hsole
    cases hx.symm.trans hx''
    cases hcall'
    exact absurd hlt (Nat.lt_irrefl _)

theorem OwnTables.of_grows (h : s'.OwnTables) (hgrows : s.begun <+: s'.begun) : s.OwnTables :=
  fun a ha b hb => h a (hgrows.subset ha) b (hgrows.subset hb)

theorem Sound.guarded (h : Sound p e n s) (hn : n < 2 ^ 64) {events : List Event}
    (hrun : run (SharedExecutor.step p) s events = .ok s') (hown : s'.OwnTables) :
    Guarded (SharedExecutor.step p) Orderly s events := by
  induction events generalizing s with
  | nil => trivial
  | cons ev events ih =>
    obtain ⟨u, hu, hrest⟩ := run_cons_eq_ok hrun
    have hguard := h.orderly hu (hown.of_grows (begun_grows hrest))
    refine ⟨hguard, fun v hv => ?_⟩
    obtain rfl := Except.ok.inj (hu.symm.trans hv)
    exact ih (h.step hn hguard hu) hrest

/-- Clients that insert into tables of their own need not care how the workers take turns. -/
theorem sound_of_own {numThreads hardware : ℕ} (hn : ThreadPool.threadCount numThreads hardware < 2 ^ 64)
    {events : List Event} (hrun : run (step p) (init numThreads hardware e) events = .ok s) (hown : s.OwnTables) :
    Sound p e (ThreadPool.threadCount numThreads hardware) s :=
  sound_of_run hn ((init_sound p numThreads hardware e).guarded hn hrun hown) hrun

end SharedExecutor

/-! ## The database -/

namespace Database

/-- Behind the insertion of a row into a table, if the table is there. -/
def insertAt (p : Platform) (db : Database) (r : Text × Row) : Database :=
  match db r.1 with
  | none => db
  | some rel => Function.update db r.1 (some (rel.append p [r.2]))

/-- A row has a value for each column of its table. -/
def Complete (db : Database) (r : Text × Row) : Prop := ∀ rel, db r.1 = some rel → RowFull rel.schema r.2

/-- The tuples of a statement have as many values as its table has columns. -/
def Fits (db : Database) (sql : Text) : Prop :=
  let stmt := (Parser.parse sql).insertStmt
  ∀ rel, db (upper stmt.tableName) = some rel →
    ∀ tuple ∈ tuples stmt.rawValues, (getLines (ch ',') tuple).length = rel.schema.length

variable {p : Platform} {db : Database}

theorem Complete.insertAt {r r' : Text × Row} (h : db.Complete r) : (db.insertAt p r').Complete r := by
  intro rel hrel
  cases hold : db r'.1 with
  | none =>
    simp only [Database.insertAt, hold] at hrel
    exact h rel hrel
  | some rel' =>
    simp only [Database.insertAt, hold] at hrel
    by_cases hname : r.1 = r'.1
    · rw [hname, Function.update_self] at hrel
      cases hrel
      exact h rel' (hname ▸ hold)
    · rw [Function.update_of_ne hname] at hrel
      exact h rel hrel

end Database

namespace Executor

variable {p : Platform} {e e' : Executor} {db : Database}

theorem Represents.insertAt (h : Represents p e db) {r : Text × Row} (hcomplete : db.Complete r)
    (hok : Inserts.insertAt e r = .ok e') : Represents p e' (db.insertAt p r) := by
  have hapart := Inserts.independent_insertAt.keeps e r e' h.apart hok
  rcases Inserts.insertAt_cases hok with ⟨ht, rfl⟩ | ⟨t, st, ht, hst, rfl⟩
  · simpa only [Database.insertAt, h.tables_eq_none.mp ht] using h
  · obtain ⟨rel, hrel, rows, es, hholds⟩ := h.exists_relation ht
    have hfull : RowFull t.schema r.2 := hholds.schema_eq ▸ hcomplete rel hrel
    obtain ⟨hholds', hframe⟩ := hholds.of_insertRow hfull hst
    simp only [Database.insertAt, hrel]
    refine h.setTable hapart ⟨_, _, hholds'⟩ fun name' u hname hu column hcolumn => ?_
    exact hframe.outside _ (h.apart.disjoint hname hu ht column hcolumn)

theorem Represents.run_insertAt (h : Represents p e db) {rows : List (Text × Row)}
    (hcomplete : ∀ r ∈ rows, db.Complete r) (hrun : run Inserts.insertAt e rows = .ok e') :
    Represents p e' (rows.foldl (Database.insertAt p) db) := by
  induction rows generalizing e db with
  | nil =>
    cases hrun
    exact h
  | cons r rows ih =>
    obtain ⟨hfirst, hrest⟩ := List.forall_mem_cons.mp hcomplete
    obtain ⟨u, hu, hrun'⟩ := run_cons_eq_ok hrun
    exact ih (h.insertAt hfirst hu) (fun r' hr' => (hrest r' hr').insertAt) hrun'

theorem mem_readTuples {schema : Schema} {ts : List Text} {row : Row} (h : row ∈ (readTuples p schema ts).1) :
    ∃ tuple ∈ ts, parseTuple p schema tuple = .ok (.ok row) := by
  induction ts with
  | nil => cases h
  | cons tuple ts ih =>
    rw [readTuples] at h
    split at h
    · rename_i row' hrow'
      rcases List.mem_cons.mp h with rfl | h
      · exact ⟨tuple, List.mem_cons_self, hrow'⟩
      · obtain ⟨tuple', hmem, hparse⟩ := ih h
        exact ⟨tuple', List.mem_cons_of_mem _ hmem, hparse⟩
    · cases h
    · cases h

/-- Tuples that fit make complete rows. -/
theorem Represents.complete (h : Represents p e db) {sql : Text} (hfits : db.Fits sql) {r : Text × Row}
    (hr : r ∈ SharedExecutor.asked p e sql) : db.Complete r := by
  unfold SharedExecutor.asked at hr
  dsimp only at hr
  split at hr
  · split at hr
    · cases hr
    · rename_i t ht
      obtain ⟨row, hrow, rfl⟩ := List.mem_map.mp hr
      obtain ⟨rel, hrel, rows, es, hholds⟩ := h.exists_relation ht
      intro rel' hrel'
      obtain rfl := Option.some.inj (hrel.symm.trans hrel')
      obtain ⟨tuple, htuple, hparse⟩ := mem_readTuples hrow
      have hlen := hfits rel hrel tuple htuple
      rw [hholds.schema_eq] at hlen ⊢
      rcases parseTuple_complete (p := p) hholds.plain hlen with ⟨exn, hexn⟩ | ⟨row', hrow', hfull⟩
      · cases hexn.symm.trans hparse
      · cases hrow'.symm.trans hparse
        exact hfull
  · cases hr

end Executor

namespace SharedExecutor

/-- One client has a table, and the other one finds none. -/
def oneOwner : List Event :=
  [.serving .accept, .serving .accept, .serving (.wake 0), .serving (.wake 1),
    .serving (.arrive 0 (str "INSERT INTO T VALUES (1,'a'),(2,'b');")),
    .serving (.arrive 1 (str "INSERT INTO U VALUES (7);")), .serving (.work 0 (.recv 37)),
    .serving (.work 1 (.recv 25)), .execute 0, .insertRow 0, .advance 0, .execute 1, .advance 0, .advance 0,
    .insertRow 0, .advance 0, .advance 0, .advance 0, .leave 0]

end SharedExecutor

end FlexQL
