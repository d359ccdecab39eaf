import FlexQL.Server.ConcurrentTables

/-!
# The order of insertions

Insertions into different tables can be exchanged. So rows leave the same executor behind in every order
that keeps the rows of each table in theirs, and the order in which their calls have begun is one of these.
-/

namespace FlexQL

open Text Runs Traces Fallible

/-- Files are written one after the other. -/
def Disk.puts (disk : Disk) (ws : List (Option (Text × ByteMemory))) : Disk := ws.foldl Disk.put disk

/-- A file that is the same before is the same behind. -/
theorem Disk.put_congr {disk disk' : Disk} {path : Text} (h : disk'.columns path = disk.columns path)
    (w : Option (Text × ByteMemory)) : (disk'.put w).columns path = (disk.put w).columns path := by
  cases w with
  | none => exact h
  | some x => simp only [Disk.put, Disk.setColumn, Function.update_apply, h]

theorem Disk.puts_of_ne {disk : Disk} {ws : List (Option (Text × ByteMemory))} {path : Text}
    (h : ∀ w ∈ ws, ∀ x ∈ w, path ≠ x.1) : (disk.puts ws).columns path = disk.columns path := by
  induction ws generalizing disk with
  | nil => rfl
  | cons w ws ih =>
    obtain ⟨hfirst, hrest⟩ := List.forall_mem_cons.mp h
    exact (ih hrest).trans (Disk.put_of_ne hfirst)

theorem Disk.puts_put {disk : Disk} {ws : List (Option (Text × ByteMemory))} {w' : Option (Text × ByteMemory)}
    (h : ∀ w ∈ ws, ∀ x ∈ w, ∀ x' ∈ w', x.1 ≠ x'.1) : (disk.puts ws).put w' = (disk.put w').puts ws := by
  induction ws generalizing disk with
  | nil => rfl
  | cons w ws ih =>
    obtain ⟨hfirst, hrest⟩ := List.forall_mem_cons.mp h
    rw [puts, puts, List.foldl_cons, List.foldl_cons, ← Disk.put_comm hfirst]
    exact ih hrest

theorem Disk.puts_comm {disk : Disk} {ws ws' : List (Option (Text × ByteMemory))}
    (h : ∀ w ∈ ws, ∀ x ∈ w, ∀ w' ∈ ws', ∀ x' ∈ w', x.1 ≠ x'.1) :
    (disk.puts ws).puts ws' = (disk.puts ws').puts ws := by
  induction ws' generalizing disk with
  | nil => rfl
  | cons w' ws' ih =>
    have hfirst : (disk.puts ws).put w' = (disk.put w').puts ws :=
      Disk.puts_put fun w hw x hx => h w hw x hx w' List.mem_cons_self
    rw [puts, List.foldl_cons, hfirst]
    exact ih fun w hw x hx v hv => h w hw x hx v (List.mem_cons_of_mem _ hv)

namespace Server

open Table Executor

/-! ## One table -/

/-- What works on a table writes its files only, and looks at no other file. -/
structure WritesOwn (t : Table) (disk : Disk) (f : Disk → Except Fault (Table × Disk)) (r : Table × Disk)
    (ws : List (Option (Text × ByteMemory))) : Prop where
  own : ∀ w ∈ ws, ∀ x ∈ w, x.1 ∈ t.columns.map ColumnStore.filePath
  disk_eq : r.2 = disk.puts ws
  elsewhere : ∀ disk', (∀ path ∈ t.columns.map ColumnStore.filePath, disk'.columns path = disk.columns path) →
    f disk' = .ok (r.1, disk'.puts ws)

variable {t : Table} {disk : Disk} {r : Table × Disk}

theorem run_eventStep_writes (hsep : t.Separate) {l : List Event} (h : run eventStep (t, disk) l = .ok r) :
    ∃ ws, WritesOwn t disk (fun disk => run eventStep (t, disk) l) r ws := by
  induction l generalizing t disk with
  | nil =>
    cases h
    exact ⟨[], by simp, rfl, fun _ _ => rfl⟩
  | cons e l ih =>
    obtain ⟨u, hu, hrest⟩ := run_cons_eq_ok h
    obtain ⟨w, hpaths, hown, hdisk, helsewhere⟩ := eventStep_writes hsep hu
    obtain ⟨ws, hlater⟩ := ih (independent_eventStep.keeps _ e u hsep hu) hrest
    refine ⟨w :: ws, List.forall_mem_cons.mpr ⟨hown, hpaths ▸ hlater.own⟩, ?_, fun disk' hsame => ?_⟩
    · rw [hlater.disk_eq, hdisk]
      rfl
    · rw [run_cons_of_ok _ (helsewhere disk' fun x hx => hsame _ (hown x hx))]
      refine hlater.elsewhere _ fun path hpath => ?_
      rw [hdisk]
      exact Disk.put_congr (hsame path (hpaths ▸ hpath)) w

theorem insertRow_writes (hsep : t.Separate) {row : Row} (h : t.insertRow disk row = .ok r) :
    ∃ ws, WritesOwn t disk (fun disk => t.insertRow disk row) r ws := by
  rw [insertRow_eq_run] at h
  obtain ⟨rid, hrid, hrun⟩ := bind_eq_ok h
  obtain ⟨ws, hws⟩ := run_eventStep_writes hsep hrun
  refine ⟨ws, hws.own, hws.disk_eq, fun disk' hsame => ?_⟩
  simp only [insertRow_eq_run, hrid]
  exact hws.elsewhere disk' hsame

/-! ## All tables -/

namespace Inserts

theorem insertAt_cases {e e' : Executor} {r : Text × Row} (h : insertAt e r = .ok e') :
    (e.tables r.1 = none ∧ e' = e) ∨ ∃ t st, e.tables r.1 = some t ∧ t.insertRow e.disk r.2 = .ok st ∧
      e' = e.setTable r.1 st.1 st.2 := by
  cases ht : e.tables r.1 with
  | none =>
    simp only [insertAt, ht] at h
    exact Or.inl ⟨rfl, (Except.ok.inj h).symm⟩
  | some t =>
    rw [insertAt_of_some ht] at h
    obtain ⟨st, hst, rfl⟩ := map_eq_ok h
    exact Or.inr ⟨t, st, rfl, hst, rfl⟩

theorem insertAt_of_none {e : Executor} {r : Text × Row} (ht : e.tables r.1 = none) : insertAt e r = .ok e := by
  simp only [insertAt, ht]

/-- Insertions into different tables can be exchanged. -/
theorem independent_insertAt : Independent insertAt Prod.fst Apart where
  keeps := by
    intro e r e' h hstep
    rcases insertAt_cases hstep with ⟨-, rfl⟩ | ⟨t, st, ht, hst, rfl⟩
    · exact h
    · have hgrown : Grown t e.disk st := by
        have hends := (h.sound _ t ht).insertRow e.disk r.2
        rw [hst] at hends
        exact hends.of_ok
      exact h.setTable _ ht hgrown.sound hgrown.schema_eq hgrown.paths_eq
  swap := by
    rintro e ⟨name, row⟩ ⟨name', row'⟩ u v h hne hu hv
    dsimp only at hne
    rcases insertAt_cases hu with ⟨ht, rfl⟩ | ⟨t, st, ht, hst, rfl⟩
    · refine ⟨v, hv, ?_⟩
      rcases insertAt_cases hv with ⟨-, rfl⟩ | ⟨t', st', -, -, rfl⟩
      · exact hu
      · exact insertAt_of_none ((setTable_ne _ _ _ hne).trans ht)
    · obtain ⟨ws, hws⟩ := insertRow_writes (h.separate ht) hst
      rcases insertAt_cases hv with ⟨ht', rfl⟩ | ⟨t', st', ht', hst', rfl⟩
      · rw [setTable_ne _ _ _ hne.symm] at ht'
        exact ⟨e, insertAt_of_none ht', hu⟩
      · dsimp only at ht ht' hst hst'
        rw [setTable_ne _ _ _ hne.symm] at ht'
        obtain ⟨ws', hws'⟩ := insertRow_writes (h.separate ht') hst'
        have hfiles : ∀ path ∈ t.columns.map ColumnStore.filePath, ∀ path' ∈ t'.columns.map ColumnStore.filePath,
            path ≠ path' := by
          rintro path hpath _ hpath' rfl
          obtain ⟨column, hcolumn, rfl⟩ := List.mem_map.mp hpath
          exact h.disjoint hne ht ht' column hcolumn hpath'
        have hfirst := hws'.elsewhere e.disk fun path' hpath' => by
          change _ = st.2.columns path'
          rw [hws.disk_eq]
          exact (Disk.puts_of_ne fun w hw x hx => (hfiles _ (hws.own w hw x hx) _ hpath').symm).symm
        have hsecond := hws.elsewhere (e.disk.puts ws') fun path hpath =>
          Disk.puts_of_ne fun w hw x hx => hfiles _ hpath _ (hws'.own w hw x hx)
        refine ⟨e.setTable name' st'.1 (e.disk.puts ws'), ?_, ?_⟩
        · rw [insertAt_of_some ht', hfirst]
          rfl
        · rw [insertAt_of_some (r := (name, row)) ((setTable_ne _ _ _ hne).trans ht)]
          change Except.map _ (t.insertRow (e.disk.puts ws') row) = _
          rw [hsecond]
          have hdisk : (e.disk.puts ws').puts ws = st'.2 := by
            rw [hws'.disk_eq]
            change _ = st.2.puts ws'
            rw [hws.disk_eq]
            exact Disk.puts_comm fun w hw x hx w' hw' x' hx' =>
              (hfiles _ (hws.own w' hw' x' hx') _ (hws'.own w hw x hx)).symm
          simp only [Except.map, Executor.setTable, hdisk, Function.update_comm hne]

/-- However the threads take turns, the executor is that of the rows one after the other, in any order
in which the rows of each table come as their calls have begun. -/
theorem run_insertAt_of_orderly {e : Executor} (hapart : Apart e) {requests order : List (Text × Row)}
    {choices : List (Text × Choice)} {s : Inserts} (hguard : Guarded step Orderly (start e requests) choices)
    (hrun : run step (start e requests) choices = .ok s) (hreturned : s.Returned)
    (horder : ∀ name, proj Prod.fst name order = s.rowsOf name) : run insertAt e order = .ok s.executor := by
  obtain ⟨-, hserial⟩ := run_rowsOf_of_orderly hapart hguard hrun hreturned
  have hblocks : (names requests choices).flatMap s.rowsOf = blocks Prod.fst (names requests choices) order :=
    List.flatMap_congr fun name _ => (horder name).symm
  rw [hblocks] at hserial
  have hcover : ∀ r ∈ order, r.1 ∈ names requests choices := by
    intro r hr
    by_contra hname
    have hother : ∀ c ∈ choices, r.1 ≠ c.1 := by
      intro c hc heq
      exact hname (List.mem_dedup.mpr (List.mem_append_left _ (heq ▸ List.mem_map_of_mem hc)))
    -- no call has begun on such a table
    have hcalls : s.calls r.1 = [] := (run_other hother hrun).2.2
    have hmem : r ∈ proj Prod.fst r.1 order := List.mem_filter.mpr ⟨hr, by simp⟩
    rw [horder, rowsOf, hcalls] at hmem
    cases hmem
  exact independent_insertAt.run_eq hapart hserial fun name => (proj_blocks (List.nodup_dedup _) hcover name).symm

end Inserts

end Server

end FlexQL
