import FlexQL.Executor.StoredRows
import FlexQL.Server.ConcurrentInsert

/-!
# Rows under way

As long as no insertion overtakes an earlier one, the columns of a table hold the values of the calls in
the order of their row numbers, each column up to the call that comes to it next. The index leads only to
rows all of whose values are there.
-/

namespace FlexQL.Server

open Text Runs Table Executor

/-! ## The steps of a full row -/

variable {schema : Schema} {row : Row} {call : Call}

theorem columnEvents_length (n i : ℕ) (values : List Value) :
    (columnEvents n i values).length = min values.length (n - i) := by
  induction values generalizing i with
  | nil => simp [columnEvents]
  | cons v values ih =>
    rw [columnEvents]
    split
    · rw [List.length_cons, ih, List.length_cons]
      omega
    · rw [List.length_nil]
      omega

theorem columnEvents_getElem? {n i j : ℕ} {values : List Value} (h : i + j < n) :
    (columnEvents n i values)[j]? = values[j]?.map (Event.column (i + j)) := by
  induction values generalizing i j with
  | nil => rfl
  | cons v values ih =>
    rw [columnEvents, if_pos (by omega)]
    cases j with
    | zero => rfl
    | succ j =>
      rw [List.getElem?_cons_succ, ih (by omega), List.getElem?_cons_succ, Nat.add_right_comm, Nat.add_assoc]

/-- One column after the other, and then the index. -/
theorem Call.events_getElem? (h : RowFull schema call.row) (j : ℕ) :
    (call.events schema)[j]? = if j < schema.length then call.row.values[j]?.map (Event.column j)
      else if j = schema.length then some (.key call.row call.rid) else none := by
  have hlen : (columnEvents schema.length 0 call.row.values).length = schema.length := by
    rw [columnEvents_length, h.length_eq, Nat.sub_zero, Nat.min_self]
  rw [Call.events, rowEvents, List.getElem?_append, hlen]
  split
  · rename_i hj
    rw [columnEvents_getElem? (by omega), Nat.zero_add]
  · rw [List.getElem?_singleton]
    split <;> split <;> first | rfl | omega

/-- The next step of a call. -/
theorem Call.head?_rest {e : Event} (h : RowFull schema call.row) (he : (call.rest schema).head? = some e) :
    (∃ v, call.pc < schema.length ∧ call.row.values[call.pc]? = some v ∧ e = .column call.pc v) ∨
      call.pc = schema.length ∧ e = .key call.row call.rid := by
  rw [Call.rest, List.head?_drop, Call.events_getElem? h] at he
  split at he
  · rename_i hpc
    obtain ⟨v, hv, rfl⟩ := Option.map_eq_some_iff.mp he
    exact Or.inl ⟨v, hpc, hv, rfl⟩
  · split at he
    · rename_i heq
      exact Or.inr ⟨heq, (Option.some.inj he).symm⟩
    · cases he

/-- What a call touches at its `j`th step. -/
def targetAt (schema : Schema) (j : ℕ) : Option ℕ := if j < schema.length then some j else none

/-- A call that has not got behind its `j`th step still has to take it. -/
theorem Call.exists_mem_rest (h : RowFull schema call.row) {j : ℕ} (hpc : call.pc ≤ j) (hj : j ≤ schema.length) :
    ∃ e ∈ call.rest schema, e.target = targetAt schema j := by
  have hmem : ∀ e, (call.events schema)[j]? = some e → e ∈ call.rest schema := by
    intro e he
    refine List.mem_of_getElem? (i := j - call.pc) ?_
    rw [Call.rest, List.getElem?_drop, Nat.add_sub_cancel' hpc, he]
  have hget := Call.events_getElem? h j
  unfold targetAt
  by_cases hlt : j < schema.length
  · have hv := List.getElem?_eq_getElem (h.length_eq ▸ hlt : j < call.row.values.length)
    rw [if_pos hlt, hv, Option.map_some] at hget
    exact ⟨_, hmem _ hget, (if_pos hlt).symm⟩
  · rw [if_neg hlt, if_pos (by omega)] at hget
    exact ⟨_, hmem _ hget, (if_neg hlt).symm⟩

/-! ## Rows under way -/

/-- The rows whose insertion has begun, by their numbers. -/
def begun (past : List Row) (s : Inserting) : List Row := past ++ s.calls.map Call.row

/-- Column `c` has its value of a row. -/
def Written (past : List Row) (s : Inserting) (rid c : ℕ) : Prop :=
  rid < past.length ∨ ∃ call, s.calls[rid - past.length]? = some call ∧ c < call.pc

/-- What a call has appended to column `c`. -/
def Call.item (c : ℕ) (call : Call) : Option (List UInt8) :=
  if c < call.pc then call.row.values[c]?.map Value.bytes else none

/-- The items of the columns. -/
def items (past : List Row) (calls : List Call) : Contents := fun c =>
  columnItems past c ++ calls.filterMap (Call.item c)

/-- What holds between the steps of insertions that keep their order. -/
structure Underway (schema : Schema) (past : List Row) (s : Inserting) : Prop where
  schema_eq : s.table.schema = schema
  columns : Table.Holds s.table s.disk (items past s.calls)
  /-- The index has the keys of rows that are written. -/
  index : ∃ es, IndexHolds s.table es ∧ ∀ e ∈ es, e ∈ keyEntries past ∨
    ∃ call ∈ s.calls, schema.length < call.pc ∧ e = (rowKey call.row, call.rid)
  /-- An earlier call is at least as far as a later one. -/
  descending : s.calls.Pairwise fun a b => b.pc ≤ a.pc
  numbered : ∀ (k : ℕ) call, s.calls[k]? = some call → call.rid = past.length + k
  full : ∀ row ∈ begun past s ++ s.waiting, RowFull schema row

/-- In a later state the calls are the same, perhaps further on, and perhaps there are more of them. -/
def Later (s s' : Inserting) : Prop :=
  ∀ (k : ℕ) call, s.calls[k]? = some call → ∃ call', s'.calls[k]? = some call' ∧
    call'.row = call.row ∧ call.pc ≤ call'.pc

variable {past : List Row} {s s' s'' : Inserting} {rid c : ℕ}

theorem Later.refl (s : Inserting) : Later s s := fun _ call h => ⟨call, h, rfl, le_rfl⟩

theorem Later.trans (h : Later s s') (h' : Later s' s'') : Later s s'' := by
  intro k call hcall
  obtain ⟨call', hcall', hrow, hpc⟩ := h k call hcall
  obtain ⟨call'', hcall'', hrow', hpc'⟩ := h' k call' hcall'
  exact ⟨call'', hcall'', hrow'.trans hrow, hpc.trans hpc'⟩

theorem begun_getElem? (rid : ℕ) : (begun past s)[rid]? =
    if rid < past.length then past[rid]? else s.calls[rid - past.length]?.map Call.row := by
  rw [begun, List.getElem?_append, List.getElem?_map]

theorem Later.begun (h : Later s s') (hrow : (begun past s)[rid]? = some row) :
    (Server.begun past s')[rid]? = some row := by
  rw [begun_getElem?] at hrow ⊢
  by_cases hlt : rid < past.length
  · rwa [if_pos hlt] at hrow ⊢
  · rw [if_neg hlt] at hrow ⊢
    obtain ⟨call, hcall, rfl⟩ := Option.map_eq_some_iff.mp hrow
    obtain ⟨call', hcall', hsame, -⟩ := h _ call hcall
    rw [hcall', Option.map_some, hsame]

theorem Later.written (h : Later s s') (hw : Written past s rid c) : Written past s' rid c := by
  rcases hw with hw | ⟨call, hcall, hc⟩
  · exact Or.inl hw
  · obtain ⟨call', hcall', -, hpc⟩ := h _ call hcall
    exact Or.inr ⟨call', hcall', hc.trans_le hpc⟩

/-- A row with a written value has begun. -/
theorem Written.lt (h : Written past s rid c) : rid < (begun past s).length := by
  rw [begun, List.length_append, List.length_map]
  rcases h with h | ⟨call, hcall, -⟩
  · omega
  · have hk := (List.getElem?_eq_some_iff.mp hcall).1
    omega

/-! ## One step of an insertion -/

/-- Nothing is appended by a call that begins. -/
theorem items_start (past : List Row) (calls : List Call) (row : Row) (rid : ℕ) :
    items past (calls ++ [⟨row, rid, 0⟩]) = items past calls := by
  funext c
  rw [items, items, List.filterMap_append]
  simp [Call.item]

/-- A call appends its value behind those of the calls before it, and those behind it have none yet. -/
theorem items_advance {before behind : List Call} {v : Value} (hv : call.row.values[call.pc]? = some v)
    (hbehind : ∀ b ∈ behind, b.pc ≤ call.pc) :
    items past (before ++ { call with pc := call.pc + 1 } :: behind) =
      Function.update (items past (before ++ call :: behind)) call.pc
        (items past (before ++ call :: behind) call.pc ++ [v.bytes]) := by
  funext c
  have hnow : Call.item c { call with pc := call.pc + 1 } =
      if c = call.pc then some v.bytes else Call.item c call := by
    unfold Call.item
    by_cases hc : c = call.pc
    · rw [if_pos hc, if_pos (by simp only; omega), hc, hv, Option.map_some]
    · rw [if_neg hc]
      congr 1
      simp only [eq_iff_iff]
      omega
  by_cases hc : c = call.pc
  · subst hc
    have hnone : behind.filterMap (Call.item call.pc) = [] := by
      refine List.filterMap_eq_nil_iff.mpr fun b hb => ?_
      rw [Call.item, if_neg (by have := hbehind b hb; omega)]
    have hcall : Call.item call.pc call = none := by rw [Call.item, if_neg (by omega)]
    rw [Function.update_self, items, items, List.filterMap_append, List.filterMap_append, List.filterMap_cons,
      List.filterMap_cons, hnow, if_pos rfl, hcall, hnone]
    simp
  · rw [Function.update_of_ne hc, items, items, List.filterMap_append, List.filterMap_append,
      List.filterMap_cons, List.filterMap_cons, hnow, if_neg hc]

/-- The last step of a call appends nothing. -/
theorem items_advance_key {before behind : List Call} (hv : call.row.values[call.pc]? = none) :
    items past (before ++ { call with pc := call.pc + 1 } :: behind) = items past (before ++ call :: behind) := by
  funext c
  have hsame : Call.item c { call with pc := call.pc + 1 } = Call.item c call := by
    unfold Call.item
    by_cases hc : c = call.pc
    · rw [hc, hv, Option.map_none, ite_self, ite_self]
    · congr 1
      simp only [eq_iff_iff]
      omega
  rw [items, items, List.filterMap_append, List.filterMap_append, List.filterMap_cons, List.filterMap_cons, hsame]

/-- In a full row each column contributes an item once the call has come to it. -/
theorem Call.item_eq_none_iff (h : RowFull schema call.row) (hc : c < schema.length) :
    call.item c = none ↔ call.pc ≤ c := by
  have hv := List.getElem?_eq_getElem (h.length_eq ▸ hc : c < call.row.values.length)
  rw [Call.item, hv]
  split <;> simp <;> omega

theorem Underway.full_begun (h : Underway schema past s) (hrow : row ∈ begun past s) : RowFull schema row :=
  h.full row (List.mem_append_left _ hrow)

theorem Underway.full_past (h : Underway schema past s) (hrow : row ∈ past) : RowFull schema row :=
  h.full_begun (List.mem_append_left _ hrow)

theorem Underway.full_call (h : Underway schema past s) (hcall : call ∈ s.calls) : RowFull schema call.row :=
  h.full_begun (List.mem_append_right _ (List.mem_map_of_mem hcall))

/-- When a call may begin, all calls before it have appended to the first column. -/
theorem Underway.pos_of_start (h : Underway schema past s) (hne : schema ≠ []) {i : ℕ}
    (hguard : Orderly s (.start i)) (hcall : call ∈ s.calls) : 0 < call.pc := by
  by_contra hzero
  obtain ⟨e, he, htarget⟩ := call.exists_mem_rest (h.full_call hcall) (by omega : call.pc ≤ 0) (Nat.zero_le _)
  have hguard' := hguard call hcall e (h.schema_eq ▸ he)
  rw [htarget, targetAt, if_pos (List.length_pos_iff.mpr hne)] at hguard'
  exact hguard' rfl

/-- Then the first column counts the rows that have begun. -/
theorem Underway.items_length (h : Underway schema past s) (hne : schema ≠ [])
    (hpos : ∀ call ∈ s.calls, 0 < call.pc) : (items past s.calls 0).length = past.length + s.calls.length := by
  have hlen := List.length_pos_iff.mpr hne
  have hcalls : ∀ call ∈ s.calls, (call.item 0).isSome = true := by
    intro call hcall
    rw [Option.isSome_iff_ne_none, ne_eq, Call.item_eq_none_iff (h.full_call hcall) hlen]
    exact Nat.not_le.mpr (hpos call hcall)
  have hpast : ∀ row ∈ past, 0 < row.values.length := by
    intro row hrow
    rwa [(h.full_past hrow).length_eq]
  rw [items, List.length_append, columnItems_length hpast, List.filterMap_length_eq_length.mpr hcalls]

/-- A call begins with the number of its row. -/
theorem Underway.start (h : Underway schema past s) (hne : schema ≠ []) {i : ℕ}
    (hguard : Orderly s (.start i)) (hstep : start s i = .ok s') : Underway schema past s' ∧ Later s s' := by
  rcases start_cases hstep with rfl | ⟨row, rid, hrow, hrid, rfl⟩
  · exact ⟨h, .refl _⟩
  obtain rfl : rid = past.length + s.calls.length := by
    have hnext := h.columns.nextRid (h.schema_eq ▸ hne)
    rw [hrid, h.items_length hne fun call hcall => h.pos_of_start hne hguard hcall] at hnext
    exact Except.ok.inj hnext
  refine ⟨⟨h.schema_eq, ?_, ?_, ?_, ?_, ?_⟩, ?_⟩
  · rw [items_start]
    exact h.columns
  · obtain ⟨es, hes, hsource⟩ := h.index
    refine ⟨es, hes, fun e he => (hsource e he).imp_right ?_⟩
    rintro ⟨call, hcall, hrest⟩
    exact ⟨call, List.mem_append_left _ hcall, hrest⟩
  · refine List.pairwise_append.mpr ⟨h.descending, List.pairwise_singleton _ _, ?_⟩
    intro a _ b hb
    rw [List.mem_singleton.mp hb]
    exact Nat.zero_le _
  · intro k call hcall
    rw [List.getElem?_append] at hcall
    split at hcall
    · exact h.numbered k call hcall
    · rename_i hk
      rw [List.getElem?_singleton] at hcall
      split at hcall
      · rename_i heq
        obtain rfl := Option.some.inj hcall
        simp only
        omega
      · cases hcall
  · intro row' hrow'
    obtain ⟨hi, rfl⟩ := List.getElem?_eq_some_iff.mp hrow
    have hwaiting := (List.getElem_cons_eraseIdx_perm hi).symm
    refine h.full row' ?_
    simp only [begun, List.map_append, List.mem_append, List.map_cons, List.map_nil, List.mem_singleton] at hrow' ⊢
    have hmem := hwaiting.mem_iff (a := row')
    rw [List.mem_cons] at hmem
    tauto
  · intro k call hcall
    refine ⟨call, ?_, rfl, le_rfl⟩
    rw [List.getElem?_append_left (List.getElem?_eq_some_iff.mp hcall).1]
    exact hcall

/-- A call that overtakes nobody stays behind the earlier ones. -/
theorem descending_advance {before behind : List Call} {e : Event}
    (h : (before ++ call :: behind).Pairwise fun a b => b.pc ≤ a.pc)
    (hfull : ∀ a ∈ before, RowFull schema a.row) (hpc : call.pc ≤ schema.length)
    (htarget : e.target = targetAt schema call.pc)
    (hguard : ∀ earlier ∈ before, ∀ e' ∈ earlier.rest schema, e.target ≠ e'.target) :
    (before ++ { call with pc := call.pc + 1 } :: behind).Pairwise fun a b => b.pc ≤ a.pc := by
  obtain ⟨hbefore, hlast, hacross⟩ := List.pairwise_append.mp h
  obtain ⟨hcall, hbehind⟩ := List.pairwise_cons.mp hlast
  refine List.pairwise_append.mpr ⟨hbefore, List.pairwise_cons.mpr ⟨fun b hb => ?_, hbehind⟩, ?_⟩
  · exact (hcall b hb).trans (Nat.le_succ _)
  · intro a ha b hb
    rcases List.mem_cons.mp hb with rfl | hb
    · by_contra hlt
      simp only [Nat.not_le, Nat.lt_succ_iff] at hlt
      obtain ⟨e', he', htarget'⟩ := Call.exists_mem_rest (hfull a ha) hlt hpc
      exact hguard a ha e' he' (htarget.trans htarget'.symm)
    · exact hacross a ha b (List.mem_cons_of_mem _ hb)

/-- The calls behind a step of one of them. -/
theorem later_set {k : ℕ} (hcall : s.calls[k]? = some call) {t : Table} {disk : Disk} :
    Later s ⟨t, disk, s.waiting, s.calls.set k { call with pc := call.pc + 1 }⟩ := by
  intro j call' hcall'
  by_cases hj : k = j
  · subst hj
    obtain rfl := Option.some.inj (hcall.symm.trans hcall')
    exact ⟨_, List.getElem?_set_self (List.getElem?_eq_some_iff.mp hcall).1, rfl, Nat.le_succ _⟩
  · exact ⟨call', (List.getElem?_set_ne hj).trans hcall', rfl, le_rfl⟩

theorem begun_set {k : ℕ} (hcall : s.calls[k]? = some call) {t : Table} {disk : Disk} :
    begun past ⟨t, disk, s.waiting, s.calls.set k { call with pc := call.pc + 1 }⟩ = begun past s := by
  obtain ⟨hk, rfl⟩ := List.getElem?_eq_some_iff.mp hcall
  have hk' : k < (s.calls.map Call.row).length := by rwa [List.length_map]
  have hsame := List.set_getElem_self hk'
  rw [List.getElem_map] at hsame
  rw [begun, begun, List.map_set]
  exact congrArg _ hsame

/-- What a step appends, and what it tells the index. -/
theorem Underway.event (h : Underway schema past s) (hschema : schema ≠ []) {before behind : List Call}
    (hcalls : s.calls = before ++ call :: behind) {e : Event} (he : (call.rest schema).head? = some e)
    {r : Table × Disk} (hr : eventStep (s.table, s.disk) e = .ok r) :
    r.1.schema = schema ∧
      Table.Holds r.1 r.2 (items past (before ++ { call with pc := call.pc + 1 } :: behind)) ∧
      ∃ es, IndexHolds r.1 es ∧ ∀ e ∈ es, e ∈ keyEntries past ∨
        ∃ c ∈ before ++ { call with pc := call.pc + 1 } :: behind, schema.length < c.pc ∧ e = (rowKey c.row, c.rid) := by
  have hmem : call ∈ s.calls := by rw [hcalls]; simp
  have hfull := h.full_call hmem
  obtain ⟨es, hes, hsource⟩ := h.index
  have hcolumns := h.columns
  rw [hcalls] at hcolumns
  have hsource' : ∀ e ∈ es, e ∈ keyEntries past ∨
      ∃ c ∈ before ++ { call with pc := call.pc + 1 } :: behind, schema.length < c.pc ∧ e = (rowKey c.row, c.rid) := by
    intro e he
    refine (hsource e he).imp_right ?_
    rintro ⟨c, hc, hlt, rfl⟩
    rw [hcalls] at hc
    rcases List.mem_append.mp hc with hc | hc
    · exact ⟨c, List.mem_append_left _ hc, hlt, rfl⟩
    · rcases List.mem_cons.mp hc with rfl | hc
      · exact ⟨_, List.mem_append_right _ List.mem_cons_self, hlt.trans (Nat.lt_succ_self _), rfl⟩
      · exact ⟨c, List.mem_append_right _ (List.mem_cons_of_mem _ hc), hlt, rfl⟩
  rcases Call.head?_rest hfull he with ⟨v, hpc, hv, rfl⟩ | ⟨hpc, rfl⟩
  · have hbehind : ∀ b ∈ behind, b.pc ≤ call.pc := by
      have hdescending := h.descending
      rw [hcalls] at hdescending
      exact (List.pairwise_cons.mp (List.pairwise_append.mp hdescending).2.1).1
    obtain ⟨d, hd, htype⟩ := (hfull.rowFits hschema).typed call.pc v hv
    rw [Nat.zero_add, ← h.schema_eq] at hd
    rcases hcolumns.insertColumn hd htype with ⟨-, herr⟩ | ⟨t', disk', hok, hholds, hframe, hindex⟩
    · rw [eventStep, herr] at hr
      cases hr
    · rw [eventStep, hok] at hr
      cases hr
      rw [items_advance hv hbehind]
      refine ⟨hframe.schema_eq.trans h.schema_eq, hholds, es, ?_, hsource'⟩
      simpa only [IndexHolds, HasIndex, hframe.schema_eq, hindex] using hes
  · have hne := (hfull.rowFits hschema).nonempty
    rcases insertKey_spec call.rid (h.schema_eq ▸ hschema) hes hne with
      herr | ⟨t', hok, hsame, hschema', -, hindex⟩
    · rw [eventStep, herr] at hr
      cases hr
    · rw [eventStep, hok] at hr
      cases hr
      refine ⟨hschema'.trans h.schema_eq, ?_, _, hindex, fun e he => ?_⟩
      · rw [items_advance_key (List.getElem?_eq_none (by rw [hfull.length_eq, hpc]))]
        refine ⟨?_, ?_, ?_⟩
        · rw [hsame, hschema']
          exact hcolumns.length_eq
        · rw [hsame]
          exact hcolumns.nodup
        · rw [hsame, hschema']
          exact hcolumns.column
      · rcases List.mem_append.mp he with he | he
        · exact hsource' e he
        · refine Or.inr ⟨_, List.mem_append_right _ List.mem_cons_self, ?_, List.mem_singleton.mp he⟩
          simp only
          omega

/-- A call that takes its next step overtakes nobody. -/
theorem Underway.advance (h : Underway schema past s) (hschema : schema ≠ []) {k : ℕ}
    (hguard : Orderly s (.advance k)) (hstep : advance s k = .ok s') :
    Underway schema past s' ∧ Later s s' := by
  rcases advance_cases hstep with rfl | ⟨call, e, r, hcall, he, hr, rfl⟩
  · exact ⟨h, .refl _⟩
  have hguard' := hguard call hcall e he
  rw [h.schema_eq] at he hguard'
  have hfull := h.full_call (List.mem_of_getElem? hcall)
  have hbegun : begun past ⟨r.1, r.2, s.waiting, s.calls.set k _⟩ = begun past s := begun_set hcall
  obtain ⟨before, behind, hcalls, htake, hset⟩ := exists_split hcall
  rw [htake] at hguard'
  obtain ⟨hschema', hcolumns, hindex⟩ := h.event hschema hcalls he hr
  rw [← hset] at hcolumns hindex
  refine ⟨⟨hschema', hcolumns, hindex, ?_, ?_, ?_⟩, later_set hcall⟩
  · have hdescending := h.descending
    rw [hcalls] at hdescending
    have hbefore : ∀ a ∈ before, RowFull schema a.row := fun a ha =>
      h.full_call (hcalls ▸ List.mem_append_left _ ha)
    rw [hset]
    rcases Call.head?_rest hfull he with ⟨v, hpc, -, rfl⟩ | ⟨hpc, rfl⟩
    · exact descending_advance hdescending hbefore hpc.le (if_pos hpc).symm hguard'
    · exact descending_advance hdescending hbefore hpc.le (if_neg (by omega)).symm hguard'
  · intro j call' hcall'
    by_cases hj : k = j
    · subst hj
      rw [List.getElem?_set_self (List.getElem?_eq_some_iff.mp hcall).1] at hcall'
      rw [← Option.some.inj hcall']
      exact h.numbered k call hcall
    · rw [List.getElem?_set_ne hj] at hcall'
      exact h.numbered j call' hcall'
  · rw [hbegun]
    exact h.full

theorem Underway.step (h : Underway schema past s) (hschema : schema ≠ []) {choice : Choice}
    (hguard : Orderly s choice) (hstep : Server.step s choice = .ok s') :
    Underway schema past s' ∧ Later s s' := by
  cases choice with
  | start i => exact h.start hschema hguard hstep
  | advance k => exact h.advance hschema hguard hstep

theorem underway_init {t : Table} {disk : Disk} {waiting : List Row} (h : HoldsRows t disk past (keyEntries past))
    (hfull : ∀ row ∈ past ++ waiting, RowFull t.schema row) :
    Underway t.schema past ⟨t, disk, waiting, []⟩ where
  schema_eq := rfl
  columns := by
    have hsame : items past [] = columnItems past := funext fun c => List.append_nil _
    rw [hsame]
    exact h.columns
  index := ⟨_, h.index, fun e he => Or.inl he⟩
  descending := .nil
  numbered := nofun
  full := by rwa [begun, List.map_nil, List.append_nil]

/-! ## Reading rows under way -/

/-- What is read in place of a value that is not there yet. -/
def unread (p : Platform) (v : Value) : Value := ⟨v.type, p.uninitialised, []⟩

variable {p : Platform}

/-- When the elements that have a value come first, an element and its value have one place. -/
theorem getElem?_filterMap {α β : Type*} {f : α → Option β} {l : List α}
    (h : l.Pairwise fun a b => f a = none → f b = none) (k : ℕ) : (l.filterMap f)[k]? = l[k]?.bind f := by
  induction l generalizing k with
  | nil => rfl
  | cons a l ih =>
    obtain ⟨ha, hl⟩ := List.pairwise_cons.mp h
    cases hfa : f a with
    | some b =>
      rw [List.filterMap_cons, hfa]
      cases k with
      | zero => exact hfa.symm
      | succ k => exact ih hl k
    | none =>
      have hnone : ∀ b ∈ a :: l, f b = none := List.forall_mem_cons.mpr ⟨hfa, fun b hb => ha b hb hfa⟩
      rw [List.filterMap_eq_nil_iff.mpr hnone, List.getElem?_nil]
      refine (Option.bind_eq_none_iff.mpr fun b hb => hnone b (List.mem_of_getElem? hb)).symm

/-- A written value is in its column at the number of its row, and no other value is there instead. -/
theorem Underway.item (h : Underway schema past s) (hc : c < schema.length) {v : Value}
    (hrow : (begun past s)[rid]? = some row) (hv : row.values[c]? = some v) :
    Written past s rid c ∧ (items past s.calls c)[rid]? = some v.bytes ∨
      ¬ Written past s rid c ∧ (items past s.calls c)[rid]? = none := by
  have hpast : ∀ r ∈ past, c < r.values.length := fun r hr => by
    rwa [(h.full_past hr).length_eq]
  have hfirst : s.calls.Pairwise fun a b => a.item c = none → b.item c = none := by
    refine h.descending.imp_of_mem fun {a b} ha hb hle hnone => ?_
    rw [Call.item_eq_none_iff (h.full_call ha) hc] at hnone
    rw [Call.item_eq_none_iff (h.full_call hb) hc]
    omega
  rw [begun_getElem?] at hrow
  rw [items, List.getElem?_append, columnItems_length hpast]
  by_cases hlt : rid < past.length
  · rw [if_pos hlt] at hrow ⊢
    rw [columnItems_getElem? hpast, hrow, Option.bind_some, hv, Option.map_some]
    exact Or.inl ⟨Or.inl hlt, rfl⟩
  · rw [if_neg hlt] at hrow ⊢
    obtain ⟨call, hcall, rfl⟩ := Option.map_eq_some_iff.mp hrow
    rw [getElem?_filterMap hfirst, hcall, Option.bind_some, Call.item, hv, Option.map_some]
    by_cases hpc : c < call.pc
    · rw [if_pos hpc]
      exact Or.inl ⟨Or.inr ⟨call, hcall, hpc⟩, rfl⟩
    · rw [if_neg hpc]
      refine Or.inr ⟨?_, rfl⟩
      rintro (hw | ⟨call', hcall', hpc'⟩)
      · exact hlt hw
      · obtain rfl := Option.some.inj (hcall.symm.trans hcall')
        exact hpc hpc'

/-- A value is read as it is stored, or it is missed because it has not been written. -/
theorem Underway.materializeValue (h : Underway schema past s) (hread : ∀ d ∈ schema, d.type.Readable)
    {d : ColumnDef} (hd : schema[c]? = some d) (hrow : (begun past s)[rid]? = some row) :
    ∃ v, row.values[c]? = some v ∧
      (Written past s rid c ∧ Executor.materializeValue p s.table s.disk rid d.type c = .ok (v.stored p) ∨
        ¬ Written past s rid c ∧ Executor.materializeValue p s.table s.disk rid d.type c = .ok (unread p v)) := by
  have hfull := h.full_begun (List.mem_of_getElem? hrow)
  have hreadable := hread d (List.mem_of_getElem? hd)
  obtain ⟨v, hv, htype⟩ := hfull.exists_value hd
  refine ⟨v, hv, ?_⟩
  rw [← h.schema_eq] at hd
  rcases h.item (h.schema_eq ▸ (List.getElem?_eq_some_iff.mp hd).1) hrow hv with ⟨hw, hitem⟩ | ⟨hw, hitem⟩
  · exact Or.inl ⟨hw, materializeValue_eq h.columns hd hreadable htype hitem⟩
  · right
    have hbuf := readAt_eq h.columns hd rid
    rw [hreadable, hitem] at hbuf
    refine ⟨hw, ?_⟩
    simp only [Executor.materializeValue, hbuf, Bind.bind, Except.bind, Pure.pure, Except.pure, unread, htype]

end FlexQL.Server
