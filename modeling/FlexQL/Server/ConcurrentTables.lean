import FlexQL.Executor.InsertAtomic
import FlexQL.Executor.Isolation
import FlexQL.Server.ConcurrentInsert
import Mathlib.Data.List.Dedup
import Mathlib.Data.List.Perm.Basic

/-!
# Insertions into several tables

All threads of the server share one executor. A thread looks its table up under a lock, and from then
on takes the steps of `insert_row` on it. What the threads of one table do does not depend on the
other tables, so these steps can be told apart by their tables.
-/

namespace FlexQL

open Text

/-- At most one file is written. -/
def Disk.put (disk : Disk) : Option (Text × ByteMemory) → Disk
  | none => disk
  | some (path, m) => disk.setColumn path m

theorem Disk.put_of_ne {disk : Disk} {w : Option (Text × ByteMemory)} {path : Text}
    (h : ∀ x ∈ w, path ≠ x.1) : (disk.put w).columns path = disk.columns path := by
  cases w with
  | none => rfl
  | some x => exact Disk.setColumn_ne _ (h x rfl)

theorem Disk.put_comm {disk : Disk} {w w' : Option (Text × ByteMemory)} (h : ∀ x ∈ w, ∀ x' ∈ w', x.1 ≠ x'.1) :
    (disk.put w).put w' = (disk.put w').put w := by
  cases w with
  | none => rfl
  | some x =>
    cases w' with
    | none => rfl
    | some x' => exact Table.setColumn_comm disk (h x rfl x' rfl) x.2 x'.2

namespace Server

open Fallible Runs Traces Table Executor

/-! ## The steps on one table -/

/-- A step of a thread writes one file of its table at most, and looks at no other file. -/
structure Writes (q : Inserting) (choice : Choice) (r : Inserting) (w : Option (Text × ByteMemory)) : Prop where
  separate : r.table.Separate
  paths_eq : r.table.columns.map ColumnStore.filePath = q.table.columns.map ColumnStore.filePath
  own : ∀ x ∈ w, x.1 ∈ q.table.columns.map ColumnStore.filePath
  disk_eq : r.disk = q.disk.put w
  elsewhere : ∀ disk, (∀ x ∈ w, disk.columns x.1 = q.disk.columns x.1) →
    step { q with disk := disk } choice = .ok { r with disk := disk.put w }

variable {q r : Inserting}

theorem Writes.start {i : ℕ} (hsep : q.table.Separate) (h : start q i = .ok r) : Writes q (.start i) r none := by
  have helsewhere : ∀ disk, Server.start { q with disk := disk } i = (Server.start q i).map fun r =>
      { r with disk := disk } := by
    intro disk
    unfold Server.start
    cases q.waiting[i]? with
    | none => rfl
    | some row => cases hrid : q.table.nextRid <;> rfl
  have hsame : r.table = q.table ∧ r.disk = q.disk := by
    rcases start_cases h with rfl | ⟨row, rid, -, -, rfl⟩ <;> exact ⟨rfl, rfl⟩
  refine ⟨hsame.1 ▸ hsep, by rw [hsame.1], by simp, hsame.2, fun disk _ => ?_⟩
  rw [step, helsewhere, h]
  rfl

/-- The same for the steps of `insert_row`. -/
theorem eventStep_writes {t : Table} {disk : Disk} {e : Event} {r : Table × Disk} (hsep : t.Separate)
    (h : eventStep (t, disk) e = .ok r) :
    ∃ w : Option (Text × ByteMemory), r.1.columns.map ColumnStore.filePath = t.columns.map ColumnStore.filePath ∧
      (∀ x ∈ w, x.1 ∈ t.columns.map ColumnStore.filePath) ∧ r.2 = disk.put w ∧
      ∀ disk', (∀ x ∈ w, disk'.columns x.1 = disk.columns x.1) →
        eventStep (t, disk') e = .ok (r.1, disk'.put w) := by
  rcases eventStep_cases h with ⟨i, v, rfl, hr⟩ | ⟨row, rid, m, rfl, hm, rfl⟩
  · obtain ⟨c, c', m, hc, hok, hpath, -, -, rfl⟩ := insertColumn_cases hsep.inUse hr
    refine ⟨some (c.filePath, m), paths_set hc hpath, ?_, rfl, fun disk' hsame => ?_⟩
    · rintro x ⟨⟩
      exact List.mem_map_of_mem (List.mem_of_getElem? hc)
    · rw [← hsame _ rfl] at hok
      exact insertColumn_of_ok hc hok hpath
  · exact ⟨none, rfl, by simp, rfl, fun disk' _ => @eventStep_key (t, disk') _ _ _ hm⟩

theorem Writes.advance {k : ℕ} (hsep : q.table.Separate) (h : advance q k = .ok r) :
    ∃ w, Writes q (.advance k) r w := by
  cases hcall : q.calls[k]? with
  | none =>
    have hidle : ∀ disk, Server.advance { q with disk := disk } k = .ok { q with disk := disk } := by
      intro disk
      simp only [Server.advance, hcall]
    obtain rfl : q = r := Except.ok.inj ((hidle q.disk).symm.trans h)
    exact ⟨none, hsep, rfl, by simp, rfl, fun disk _ => hidle disk⟩
  | some call =>
    cases hhead : (call.rest q.table.schema).head? with
    | none =>
      have hidle : ∀ disk, Server.advance { q with disk := disk } k = .ok { q with disk := disk } := by
        intro disk
        simp only [Server.advance, hcall, hhead]
      obtain rfl : q = r := Except.ok.inj ((hidle q.disk).symm.trans h)
      exact ⟨none, hsep, rfl, by simp, rfl, fun disk _ => hidle disk⟩
    | some e =>
      have hstep : ∀ disk, Server.advance { q with disk := disk } k = (eventStep (q.table, disk) e).map fun st =>
          { q with table := st.1, disk := st.2, calls := q.calls.set k { call with pc := call.pc + 1 } } := by
        intro disk
        simp only [Server.advance, hcall, hhead]
        cases eventStep (q.table, disk) e <;> rfl
      obtain ⟨st, hst, rfl⟩ := map_eq_ok ((hstep q.disk).symm.trans h)
      obtain ⟨w, hpaths, hown, hdisk, helsewhere⟩ := eventStep_writes hsep hst
      refine ⟨w, independent_eventStep.keeps _ e st hsep hst, hpaths, hown, hdisk, fun disk hsame => ?_⟩
      rw [step, hstep, helsewhere disk hsame]
      rfl

theorem writes_of_step {choice : Choice} (hsep : q.table.Separate) (h : step q choice = .ok r) :
    ∃ w, Writes q choice r w := by
  cases choice with
  | start i => exact ⟨none, .start hsep h⟩
  | advance k => exact Writes.advance hsep h

/-! ## The steps on all tables -/

/-- The executor, and for each table the rows whose calls have not begun and the calls that have. -/
structure Inserts where
  executor : Executor
  waiting : Text → List Row
  calls : Text → List Call

namespace Inserts

/-- What the threads of one table work on. -/
def part (s : Inserts) (name : Text) (t : Table) : Inserting :=
  ⟨t, s.executor.disk, s.waiting name, s.calls name⟩

def setPart (s : Inserts) (name : Text) (q : Inserting) : Inserts where
  executor := s.executor.setTable name q.table q.disk
  waiting := Function.update s.waiting name q.waiting
  calls := Function.update s.calls name q.calls

/-- A thread of one of the tables goes next. -/
def step (s : Inserts) (c : Text × Choice) : Except Fault Inserts :=
  match s.executor.tables c.1 with
  | none => .ok s
  | some t => do
    let q ← Server.step (s.part c.1 t) c.2
    return s.setPart c.1 q

/-- No call overtakes an earlier one on its own table. -/
def Orderly (s : Inserts) (c : Text × Choice) : Prop :=
  ∀ t ∈ s.executor.tables c.1, Server.Orderly (s.part c.1 t) c.2

instance (s : Inserts) (c : Text × Choice) : Decidable (s.Orderly c) :=
  inferInstanceAs (Decidable (∀ t ∈ s.executor.tables c.1, Server.Orderly (s.part c.1 t) c.2))

/-- All calls have returned. -/
def Returned (s : Inserts) : Prop :=
  ∀ name, s.waiting name = [] ∧ ∀ t ∈ s.executor.tables name, (s.part name t).Returned

/-- The rows that are to be inserted, and no call has begun. -/
def start (e : Executor) (requests : List (Text × Row)) : Inserts where
  executor := e
  waiting name := (proj Prod.fst name requests).map Prod.snd
  calls _ := []

variable {s s' : Inserts} {name name' : Text} {t : Table}

theorem step_of_none (h : s.executor.tables name = none) (choice : Choice) : step s (name, choice) = .ok s := by
  simp only [step, h]

theorem step_of_some (h : s.executor.tables name = some t) (choice : Choice) :
    step s (name, choice) = (Server.step (s.part name t) choice).map (s.setPart name) := by
  simp only [step, h]
  cases Server.step (s.part name t) choice <;> rfl

theorem step_cases {c : Text × Choice} (h : step s c = .ok s') :
    (s.executor.tables c.1 = none ∧ s' = s) ∨ ∃ t q, s.executor.tables c.1 = some t ∧
      Server.step (s.part c.1 t) c.2 = .ok q ∧ s' = s.setPart c.1 q := by
  cases ht : s.executor.tables c.1 with
  | none =>
    rw [step_of_none ht] at h
    exact Or.inl ⟨rfl, (Except.ok.inj h).symm⟩
  | some t =>
    rw [step_of_some ht] at h
    obtain ⟨q, hq, rfl⟩ := map_eq_ok h
    exact Or.inr ⟨t, q, rfl, hq, rfl⟩

/-! ### Parts -/

theorem part_setPart (s : Inserts) (name : Text) (q : Inserting) : (s.setPart name q).part name q.table = q := by
  simp [part, setPart, Executor.setTable]

theorem part_setPart_ne (s : Inserts) (h : name' ≠ name) (q : Inserting) (t : Table) :
    (s.setPart name q).part name' t = { s.part name' t with disk := q.disk } := by
  simp [part, setPart, Executor.setTable, Function.update_of_ne h]

theorem setPart_part (ht : s.executor.tables name = some t) : s.setPart name (s.part name t) = s := by
  have htables : Function.update s.executor.tables name (some t) = s.executor.tables := by
    rw [← ht, Function.update_eq_self]
  simp only [setPart, part, Executor.setTable, htables, Function.update_eq_self]

theorem setPart_setPart (s : Inserts) (name : Text) (q r : Inserting) :
    (s.setPart name q).setPart name r = s.setPart name r := by
  simp only [setPart, Executor.setTable, Function.update_idem]

theorem setPart_tables_ne (s : Inserts) (h : name' ≠ name) (q : Inserting) :
    (s.setPart name q).executor.tables name' = s.executor.tables name' := Executor.setTable_ne _ _ _ h

/-- The tables have files of their own. -/
structure FilesApart (s : Inserts) : Prop where
  separate : ∀ name t, s.executor.tables name = some t → t.Separate
  disjoint : ∀ name name' t t', name ≠ name' → s.executor.tables name = some t →
    s.executor.tables name' = some t' →
    ∀ path ∈ t.columns.map ColumnStore.filePath, path ∉ t'.columns.map ColumnStore.filePath

theorem FilesApart.setPart (h : s.FilesApart) (ht : s.executor.tables name = some t) {q : Inserting}
    (hsep : q.table.Separate)
    (hpaths : q.table.columns.map ColumnStore.filePath = t.columns.map ColumnStore.filePath) :
    (s.setPart name q).FilesApart := by
  have hold : ∀ name' u, (s.setPart name q).executor.tables name' = some u → u.Separate ∧
      ∃ u', s.executor.tables name' = some u' ∧
        u.columns.map ColumnStore.filePath = u'.columns.map ColumnStore.filePath := by
    intro name' u hu
    rcases Executor.setTable_cases hu with ⟨rfl, rfl⟩ | ⟨-, hu⟩
    · exact ⟨hsep, t, ht, hpaths⟩
    · exact ⟨h.separate name' u hu, u, hu, rfl⟩
  constructor
  · exact fun name' u hu => (hold name' u hu).1
  · intro name₁ name₂ u₁ u₂ hne hu₁ hu₂
    obtain ⟨-, u₁', hu₁', heq₁⟩ := hold name₁ u₁ hu₁
    obtain ⟨-, u₂', hu₂', heq₂⟩ := hold name₂ u₂ hu₂
    rw [heq₁, heq₂]
    exact h.disjoint name₁ name₂ u₁' u₂' hne hu₁' hu₂'

/-- Steps on different tables can be exchanged. -/
theorem independent_step : Independent step Prod.fst FilesApart where
  keeps := by
    intro s c s' h hstep
    rcases step_cases hstep with ⟨-, rfl⟩ | ⟨t, q, ht, hq, rfl⟩
    · exact h
    · obtain ⟨w, hw⟩ := writes_of_step (h.separate _ t ht) hq
      exact h.setPart ht hw.separate hw.paths_eq
  swap := by
    rintro s ⟨name, c⟩ ⟨name', c'⟩ u v h hne hu hv
    rcases step_cases hu with ⟨ht, rfl⟩ | ⟨t, q, ht, hq, rfl⟩
    · refine ⟨v, hv, ?_⟩
      rcases step_cases hv with ⟨-, rfl⟩ | ⟨t', q', -, -, rfl⟩
      · exact hu
      · exact step_of_none ((setPart_tables_ne _ hne _).trans ht) c
    · obtain ⟨w, hw⟩ := writes_of_step (h.separate _ t ht) hq
      rcases step_cases hv with ⟨ht', rfl⟩ | ⟨t', q', ht', hq', rfl⟩
      · exact ⟨s, step_of_none ((setPart_tables_ne _ hne.symm _).symm.trans ht') c', hu⟩
      · dsimp only at hne ht hq ht' hq'
        rw [setPart_tables_ne _ hne.symm] at ht'
        rw [part_setPart_ne _ hne.symm] at hq'
        obtain ⟨w', hw'⟩ := writes_of_step (h.separate _ t' ht') hq'
        have hfiles : ∀ x ∈ w, ∀ x' ∈ w', x.1 ≠ x'.1 := by
          intro x hx x' hx' heq
          exact h.disjoint _ _ t t' hne ht ht' x.1 (hw.own x hx) (heq ▸ hw'.own x' hx')
        have hfirst := hw'.elsewhere s.executor.disk fun x' hx' => by
          change _ = q.disk.columns x'.1
          rw [hw.disk_eq]
          exact (Disk.put_of_ne fun x hx => (hfiles x hx x' hx').symm).symm
        have hsecond := hw.elsewhere (s.executor.disk.put w') fun x hx => Disk.put_of_ne (hfiles x hx)
        refine ⟨s.setPart name' { q' with disk := s.executor.disk.put w' }, ?_, ?_⟩
        · rw [step_of_some ht']
          exact congrArg (Except.map _) hfirst
        · rw [step_of_some ((setPart_tables_ne _ hne _).trans ht), part_setPart_ne _ hne]
          rw [show ({ s.part name t with disk := ({ q' with disk := s.executor.disk.put w' } : Inserting).disk } :
            Inserting) = { s.part name t with disk := s.executor.disk.put w' } from rfl, hsecond]
          have hdisk : (s.executor.disk.put w').put w = q'.disk := by
            rw [hw'.disk_eq, Disk.put_comm fun x' hx' x hx => (hfiles x hx x' hx').symm]
            exact congrArg (Disk.put · w') hw.disk_eq.symm
          simp only [Except.map, setPart, Executor.setTable, hdisk, Function.update_comm hne]

/-- Whether a thread keeps to the order depends on its own table only. -/
theorem orderly_iff {c c' : Text × Choice} (hne : c.1 ≠ c'.1) (h : step s c = .ok s') :
    s'.Orderly c' ↔ s.Orderly c' := by
  rcases step_cases h with ⟨-, rfl⟩ | ⟨t, q, -, -, rfl⟩
  · rfl
  · unfold Orderly
    rw [setPart_tables_ne _ hne.symm]
    refine forall₂_congr fun t' _ => ?_
    rw [part_setPart_ne _ hne.symm]
    cases c'.2 <;> rfl

/-- A step leaves the other tables alone. -/
theorem step_other {c : Text × Choice} (hne : name ≠ c.1) (h : step s c = .ok s') :
    s'.executor.tables name = s.executor.tables name ∧ s'.waiting name = s.waiting name ∧
      s'.calls name = s.calls name := by
  rcases step_cases h with ⟨-, rfl⟩ | ⟨t, q, -, -, rfl⟩
  · exact ⟨rfl, rfl, rfl⟩
  · exact ⟨setPart_tables_ne _ hne _, Function.update_of_ne hne _ _, Function.update_of_ne hne _ _⟩

theorem run_other {choices : List (Text × Choice)} (hne : ∀ c ∈ choices, name ≠ c.1)
    (h : run step s choices = .ok s') : s'.executor.tables name = s.executor.tables name ∧
      s'.waiting name = s.waiting name ∧ s'.calls name = s.calls name := by
  induction choices generalizing s with
  | nil =>
    cases h
    exact ⟨rfl, rfl, rfl⟩
  | cons c choices ih =>
    obtain ⟨u, hu, hrest⟩ := run_cons_eq_ok h
    obtain ⟨htables, hwaiting, hcalls⟩ := ih (fun c' hc' => hne c' (List.mem_cons_of_mem _ hc')) hrest
    obtain ⟨htables', hwaiting', hcalls'⟩ := step_other (hne c List.mem_cons_self) hu
    exact ⟨htables.trans htables', hwaiting.trans hwaiting', hcalls.trans hcalls'⟩

/-- Without a table nothing happens. -/
theorem run_of_none {choices : List (Text × Choice)} (ht : s.executor.tables name = none)
    (hname : ∀ c ∈ choices, c.1 = name) : run step s choices = .ok s := by
  induction choices with
  | nil => rfl
  | cons c choices ih =>
    rw [run_cons_of_ok _ (step_of_none ((hname c List.mem_cons_self).symm ▸ ht) c.2)]
    exact ih fun c' hc' => hname c' (List.mem_cons_of_mem _ hc')

/-- Steps on one table are a run on its part. -/
theorem run_part {choices : List (Text × Choice)} (ht : s.executor.tables name = some t)
    (hname : ∀ c ∈ choices, c.1 = name) (hguard : Guarded step Orderly s choices)
    (h : run step s choices = .ok s') : ∃ q,
      Guarded Server.step Server.Orderly (s.part name t) (choices.map Prod.snd) ∧
      run Server.step (s.part name t) (choices.map Prod.snd) = .ok q ∧ s' = s.setPart name q := by
  induction choices generalizing s t with
  | nil =>
    cases h
    exact ⟨_, trivial, rfl, (setPart_part ht).symm⟩
  | cons c choices ih =>
    obtain ⟨u, hu, hrest⟩ := run_cons_eq_ok h
    obtain rfl : c.1 = name := hname c List.mem_cons_self
    have hstep := hu
    rw [step_of_some ht] at hstep
    obtain ⟨r, hr, rfl⟩ := map_eq_ok hstep
    obtain ⟨q, hguard', hrun, rfl⟩ := ih (Executor.setTable_same _ _ r.table r.disk)
      (fun c' hc' => hname c' (List.mem_cons_of_mem _ hc')) (hguard.2 _ hu) hrest
    rw [part_setPart] at hguard' hrun
    refine ⟨q, ⟨hguard.1 t ht, fun r' hr' => ?_⟩, ?_, setPart_setPart ..⟩
    · obtain rfl : r = r' := Except.ok.inj (hr.symm.trans hr')
      exact hguard'
    · rw [List.map_cons, run_cons_of_ok _ hr]
      exact hrun

/-! ## One row after the other -/

/-- A row goes into a table, if the table is there. -/
def insertAt (e : Executor) (r : Text × Row) : Except Fault Executor :=
  match e.tables r.1 with
  | none => .ok e
  | some t => do
    let st ← t.insertRow e.disk r.2
    return e.setTable r.1 st.1 st.2

variable {e e' : Executor}

theorem insertAt_of_some {r : Text × Row} (ht : e.tables r.1 = some t) :
    insertAt e r = (t.insertRow e.disk r.2).map fun st => e.setTable r.1 st.1 st.2 := by
  simp only [insertAt, ht]
  cases t.insertRow e.disk r.2 <;> rfl

/-- The rows of one table. -/
theorem run_insertAt {rows : List Row} {st : Table × Disk} (ht : e.tables name = some t)
    (h : run insertStep (t, e.disk) rows = .ok st) :
    run insertAt e (rows.map (Prod.mk name)) = .ok (e.setTable name st.1 st.2) := by
  induction rows generalizing e t with
  | nil =>
    cases h
    have htables : Function.update e.tables name (some t) = e.tables := by rw [← ht, Function.update_eq_self]
    simp only [List.map_nil, run_nil, Executor.setTable, htables]
  | cons row rows ih =>
    obtain ⟨u, hu, hrest⟩ := run_cons_eq_ok h
    have hstep : insertAt e (name, row) = .ok (e.setTable name u.1 u.2) := by
      rw [insertAt_of_some ht]
      exact congrArg (Except.map _) hu
    rw [List.map_cons, run_cons_of_ok _ hstep]
    have htail := ih (Executor.setTable_same e name u.1 u.2) hrest
    rw [htail]
    simp only [Executor.setTable, Function.update_idem]

/-- The tables with these names are ready, and no call has begun on them. -/
def Ready (s : Inserts) (names : List Text) : Prop :=
  ∀ name ∈ names, s.calls name = [] ∧ ∀ t, s.executor.tables name = some t → t.Sound ∧ t.Separate

/-- The rows of a table, in the order in which their calls have read their numbers. -/
def rowsOf (s : Inserts) (name : Text) : List (Text × Row) :=
  (s.calls name).map fun call => (name, call.row)

/-- The calls on one table. -/
theorem run_rowsOf {choices : List (Text × Choice)} (ht : s.executor.tables name = some t)
    (hname : ∀ c ∈ choices, c.1 = name) (hready : s.Ready [name]) (hguard : Guarded step Orderly s choices)
    (hrun : run step s choices = .ok s')
    (hreturned : ∀ u, s'.executor.tables name = some u → (s'.part name u).Returned) :
    (s'.rowsOf name).Perm ((s.waiting name).map (Prod.mk name)) ∧
      run insertAt s.executor (s'.rowsOf name) = .ok s'.executor := by
  obtain ⟨q, hguard', hq, rfl⟩ := run_part ht hname hguard hrun
  obtain ⟨hcalls, hsound⟩ := hready name (List.mem_singleton_self name)
  obtain ⟨hsound, hsep⟩ := hsound t ht
  obtain ⟨n, hn⟩ := hsound.nextRid
  rw [part, hcalls] at hguard' hq
  have hback := hreturned q.table (Executor.setTable_same ..)
  rw [part_setPart] at hback
  have htracked := tracked_of_run hsep hn hguard' hq
  have hrows : (s.setPart name q).rowsOf name = (q.calls.map Call.row).map (Prod.mk name) := by
    simp only [rowsOf, setPart, Function.update_self, List.map_map]
    rfl
  rw [hrows]
  refine ⟨List.Perm.map _ ?_, run_insertAt ht (htracked.run_calls hsep hn hback.2)⟩
  simpa [hback.1] using htracked.perm

/-- When the tables take turns as a whole, the rows go into them one after the other. -/
theorem run_rowsOf_blocks {names : List Text} (hnames : names.Nodup) {choices : List (Text × Choice)}
    (hready : s.Ready names) (hguard : Guarded step Orderly s (blocks Prod.fst names choices))
    (hrun : run step s (blocks Prod.fst names choices) = .ok s') (hreturned : s'.Returned) :
    (names.flatMap s'.rowsOf).Perm (names.flatMap fun name => (s.waiting name).map (Prod.mk name)) ∧
      run insertAt s.executor (names.flatMap s'.rowsOf) = .ok s'.executor := by
  induction names generalizing s with
  | nil =>
    cases hrun
    exact ⟨.refl _, rfl⟩
  | cons name names ih =>
    obtain ⟨hnew, hnames'⟩ := List.nodup_cons.mp hnames
    have hsplit : blocks Prod.fst (name :: names) choices =
        proj Prod.fst name choices ++ blocks Prod.fst names choices := List.flatMap_cons
    rw [hsplit] at hrun hguard
    obtain ⟨u, hu, hrest⟩ := run_append_eq_ok hrun
    obtain ⟨hguard₁, hguard₂⟩ := hguard.append
    have hown : ∀ c ∈ proj Prod.fst name choices, c.1 = name := fun c hc => comp_of_mem_proj hc
    have hothers : ∀ name' ∈ names, u.executor.tables name' = s.executor.tables name' ∧
        u.waiting name' = s.waiting name' ∧ u.calls name' = s.calls name' := by
      refine fun name' hmem => run_other (fun c hc => ?_) hu
      rintro rfl
      exact hnew (hown c hc ▸ hmem)
    have hready' : u.Ready names := by
      intro name' hmem
      obtain ⟨htables, -, hcalls⟩ := hothers name' hmem
      rw [htables, hcalls]
      exact hready name' (List.mem_cons_of_mem _ hmem)
    obtain ⟨hperm, hserial⟩ := ih hnames' hready' (hguard₂ u hu) hrest
    have hwaiting := List.flatMap_congr fun name' hmem =>
      congrArg (List.map (Prod.mk name')) (hothers name' hmem).2.1
    rw [hwaiting] at hperm
    -- the threads of the other tables leave this one as it is
    have hlater : ∀ c ∈ blocks Prod.fst names choices, name ≠ c.1 := by
      intro c hc
      obtain ⟨name', hmem, hc⟩ := List.mem_flatMap.mp hc
      rw [comp_of_mem_proj hc]
      rintro rfl
      exact hnew hmem
    obtain ⟨htables, hdone, hcalls⟩ := run_other hlater hrest
    obtain ⟨hempty, hback⟩ := hreturned name
    rw [List.flatMap_cons, List.flatMap_cons]
    cases ht : s.executor.tables name with
    | none =>
      obtain rfl : s = u := Except.ok.inj ((run_of_none ht hown).symm.trans hu)
      have hnone : s'.rowsOf name = [] := by
        rw [rowsOf, hcalls, (hready name List.mem_cons_self).1]
        rfl
      rw [hdone] at hempty
      rw [hnone, hempty]
      exact ⟨hperm, hserial⟩
    | some t =>
      have hback' : ∀ v, u.executor.tables name = some v → (u.part name v).Returned := by
        intro v hv
        have hpart := hback v (htables.trans hv)
        rw [part, hdone, hcalls] at hpart
        exact hpart
      have hone : s.Ready [name] := by
        intro name' hmem
        rw [List.mem_singleton.mp hmem]
        exact hready name List.mem_cons_self
      obtain ⟨hrows, hfirst⟩ := run_rowsOf ht hown hone hguard₁ hu hback'
      have hsame : s'.rowsOf name = u.rowsOf name := by rw [rowsOf, rowsOf, hcalls]
      rw [hsame, run_append_of_ok _ hfirst]
      exact ⟨hrows.append hperm, hserial⟩

theorem filesApart_start (h : Apart e) (requests : List (Text × Row)) : (start e requests).FilesApart where
  separate _ _ ht := h.separate ht
  disjoint := by
    intro name name' t t' hne ht ht' path hpath hpath'
    obtain ⟨column, hcolumn, rfl⟩ := List.mem_map.mp hpath
    exact h.disjoint hne ht ht' column hcolumn hpath'

/-- The tables that a run and its rows are about. -/
def names (requests : List (Text × Row)) (choices : List (Text × Choice)) : List Text :=
  (choices.map Prod.fst ++ requests.map Prod.fst).dedup

/-- However the threads of the tables take turns, all rows go in, one table after the other. -/
theorem run_rowsOf_of_orderly (hapart : Apart e) {requests : List (Text × Row)}
    {choices : List (Text × Choice)} (hguard : Guarded step Orderly (start e requests) choices)
    (hrun : run step (start e requests) choices = .ok s) (hreturned : s.Returned) :
    ((names requests choices).flatMap s.rowsOf).Perm requests ∧
      run insertAt e ((names requests choices).flatMap s.rowsOf) = .ok s.executor := by
  have hnames : (names requests choices).Nodup := List.nodup_dedup _
  have hchoices : ∀ c ∈ choices, c.1 ∈ names requests choices := fun c hc =>
    List.mem_dedup.mpr (List.mem_append_left _ (List.mem_map_of_mem hc))
  have hrequests : ∀ r ∈ requests, r.1 ∈ names requests choices := fun r hr =>
    List.mem_dedup.mpr (List.mem_append_right _ (List.mem_map_of_mem hr))
  have hfiles := filesApart_start hapart requests
  have hproj := proj_blocks hnames hchoices
  have hready : (start e requests).Ready (names requests choices) := fun name _ =>
    ⟨rfl, fun t ht => ⟨hapart.sound name t ht, hapart.separate ht⟩⟩
  have hlocal : ∀ s c c' s', FilesApart s → c.1 ≠ c'.1 → step s c = .ok s' → (Orderly s' c' ↔ Orderly s c') :=
    fun _ _ _ _ _ hne hstep => orderly_iff hne hstep
  have hguard' := independent_step.guarded_of_proj hlocal hfiles hrun hguard hproj
  obtain ⟨hperm, hserial⟩ := run_rowsOf_blocks hnames hready hguard'
    (independent_step.run_eq hfiles hrun hproj) hreturned
  have hwaiting : ((names requests choices).flatMap fun name =>
      ((start e requests).waiting name).map (Prod.mk name)) = blocks Prod.fst (names requests choices) requests := by
    refine List.flatMap_congr fun name _ => ?_
    rw [start, List.map_map]
    exact (List.map_congr_left fun r hr => by rw [← comp_of_mem_proj hr]; rfl).trans (List.map_id _)
  rw [hwaiting] at hperm
  exact ⟨hperm.trans (perm_of_proj (proj_blocks hnames hrequests)).symm, hserial⟩

/-! ## Statements -/

/-- An `INSERT` of one row. -/
structure InsertsRow (p : Platform) (e : Executor) (sql : Text) (r : Text × Row) : Prop where
  type_eq : (Parser.parse sql).type = .insert
  name_eq : upper (Parser.parse sql).insertStmt.tableName = r.1
  row : ∃ t tuple, e.tables r.1 = some t ∧ tuples (Parser.parse sql).insertStmt.rawValues = [tuple] ∧
    parseTuple p t.schema tuple = .ok (.ok r.2)

variable {p : Platform}

theorem InsertsRow.sqlStep {sql : Text} {r : Text × Row} (h : InsertsRow p e sql r) :
    sqlStep p e sql = insertAt e r := by
  obtain ⟨t, tuple, ht, htuple, hrow⟩ := h.row
  have hget : e.getTable (Parser.parse sql).insertStmt.tableName = .ok t := by
    rw [getTable_eq_ok, h.name_eq, ht]
  rw [insertAt_of_some ht]
  simp only [Executor.sqlStep, exec, h.type_eq, execInsert, hget, htuple, h.name_eq,
    insertTuples_eq_run rfl (.cons hrow .nil), run_singleton, insertStep]
  cases t.insertRow e.disk r.2 <;> rfl

/-- Insertions keep the schemas. -/
theorem InsertsRow.insertAt {sql : Text} {r r' : Text × Row} (h : InsertsRow p e sql r)
    (hstep : insertAt e r' = .ok e') : InsertsRow p e' sql r := by
  obtain ⟨t, tuple, ht, htuple, hrow⟩ := h.row
  refine ⟨h.type_eq, h.name_eq, ?_⟩
  by_cases hname : r.1 = r'.1
  · rw [insertAt_of_some (hname ▸ ht)] at hstep
    obtain ⟨st, hst, rfl⟩ := map_eq_ok hstep
    exact ⟨st.1, tuple, hname ▸ Executor.setTable_same .., htuple, (insertRow_schema hst).symm ▸ hrow⟩
  · cases ht' : e.tables r'.1 with
    | none =>
      simp only [Inserts.insertAt, ht'] at hstep
      cases hstep
      exact ⟨t, tuple, ht, htuple, hrow⟩
    | some t' =>
      rw [insertAt_of_some ht'] at hstep
      obtain ⟨st, -, rfl⟩ := map_eq_ok hstep
      exact ⟨t, tuple, (Executor.setTable_ne _ _ _ hname).trans ht, htuple, hrow⟩

theorem run_sqlStep {sqls : List Text} {requests : List (Text × Row)}
    (h : List.Forall₂ (InsertsRow p e) sqls requests) (hrun : run insertAt e requests = .ok e') :
    run (Executor.sqlStep p) e sqls = .ok e' := by
  induction sqls generalizing e requests with
  | nil =>
    cases h
    exact hrun
  | cons sql sqls ih =>
    obtain ⟨r, requests, hfirst, hrest, rfl⟩ := List.forall₂_cons_left_iff.mp h
    obtain ⟨u, hu, hrun'⟩ := run_cons_eq_ok hrun
    rw [run_cons_of_ok _ (hfirst.sqlStep.trans hu)]
    exact ih (hrest.imp fun _ _ h => h.insertAt hu) hrun'

def schemaT : Schema := [⟨str "ID", .decimal⟩, ⟨str "N", .decimal⟩]

def schemaU : Schema := [⟨str "V", .decimal⟩]

/-- Two new tables. -/
def newTables (t u : Table) : Executor :=
  ((Executor.init (str "data") .blank).setTable (str "T") t .blank).setTable (str "U") u .blank

theorem apart_newTables {t u : Table} (ht : Table.init (str "data") (str "T") schemaT .blank = .ok t)
    (hu : Table.init (str "data") (str "U") schemaU .blank = .ok u) : Apart (newTables t u) := by
  have hfirst := (apart_init (str "data") .blank).create (s := ⟨str "T", []⟩) ht (by decide) (by simp [Executor.init])
  refine hfirst.create (s := ⟨str "U", []⟩) hu (by decide) ?_
  intro name v hv d hd d' hd'
  rcases Executor.setTable_cases hv with ⟨rfl, rfl⟩ | ⟨-, hnone⟩
  · obtain ⟨m, rfl, -, -⟩ := init_cases ht
    have hfiles : ∀ d ∈ schemaU, ∀ d' ∈ schemaT, fileName (str "U") d.name ≠ fileName (str "T") d'.name := by
      decide
    exact hfiles d hd d' hd'
  · cases hnone

def threeInserts : List Text :=
  [str "INSERT INTO T VALUES (1, 10)", str "INSERT INTO U VALUES (7)", str "INSERT INTO T VALUES (2, 20)"]

def threeRows : List (Text × Row) :=
  [(str "T", ⟨[⟨.decimal, 1, []⟩, ⟨.decimal, 10, []⟩]⟩), (str "U", ⟨[⟨.decimal, 7, []⟩]⟩),
    (str "T", ⟨[⟨.decimal, 2, []⟩, ⟨.decimal, 20, []⟩]⟩)]

/-- The second client of `T` begins behind the first column, and the client of `U` in between. -/
def taking : List (Text × Choice) :=
  [(str "T", .start 0), (str "T", .advance 0), (str "U", .start 0), (str "T", .start 0), (str "T", .advance 1),
    (str "U", .advance 0), (str "T", .advance 0), (str "U", .advance 0), (str "T", .advance 0),
    (str "T", .advance 1), (str "T", .advance 1)]

theorem insertsRow_threeInserts {t u : Table} (ht : t.schema = schemaT) (hu : u.schema = schemaU) :
    List.Forall₂ (InsertsRow .reference (newTables t u)) threeInserts threeRows := by
  have htables : (newTables t u).tables (str "T") = some t := by
    rw [newTables, Executor.setTable_ne _ _ _ (by decide), Executor.setTable_same]
  refine .cons ⟨by decide, by decide, t, str "1, 10", htables, by decide, ?_⟩
    (.cons ⟨by decide, by decide, u, str "7", Executor.setTable_same .., by decide, ?_⟩
      (.cons ⟨by decide, by decide, t, str "2, 20", htables, by decide, ?_⟩ .nil))
  · rw [ht]
    decide
  · rw [hu]
    decide
  · rw [ht]
    decide

end Inserts

end Server

end FlexQL
