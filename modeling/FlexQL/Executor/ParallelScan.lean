import FlexQL.Lib.Fallible
import FlexQL.Lib.Runs
import FlexQL.Storage.PageBounds
import Mathlib.Algebra.BigOperators.Group.Finset.Piecewise
import Mathlib.Algebra.Order.BigOperators.Group.Finset

/-!
# The parallel scan

`ParallelScanner::scan` cuts the row numbers into one chunk for each thread, and the last thread takes
what the division left over. The threads write to vectors of their own, so the result does not depend
on how they are scheduled.
-/

namespace FlexQL

open Fallible Runs

/-! ## The scan of one thread -/

/-- `scan_all`: all row numbers in a row. -/
def RealScanner.scanAll (cache : CacheManager) (mem : ByteMemory) :
    Except Fault (List ℕ × CacheManager) := do
  let (total, cache) ← ColumnReader.getTotalRows cache mem
  return (List.range total, cache)

namespace ParallelScanner

variable {total numThreads t : ℕ}

/-! ## Chunks -/

/-- `total / num_threads`. -/
def chunk (total numThreads : ℕ) : ℕ := total / numThreads

/-- `t * chunk`. -/
def start (total numThreads t : ℕ) : ℕ := t * chunk total numThreads % 2 ^ 64

/-- Where the chunk of a thread ends. -/
def stop (total numThreads t : ℕ) : ℕ :=
  if t = numThreads - 1 then total
  else (start total numThreads t + chunk total numThreads) % 2 ^ 64

/-- The borders between the chunks. -/
def border (total numThreads t : ℕ) : ℕ :=
  if t < numThreads then t * chunk total numThreads else total

theorem mul_chunk_le (total : ℕ) (ht : t ≤ numThreads) : t * chunk total numThreads ≤ total := by
  calc t * chunk total numThreads ≤ numThreads * (total / numThreads) := Nat.mul_le_mul_right _ ht
    _ ≤ total := Nat.mul_div_le total numThreads

theorem start_eq (htotal : total < 2 ^ 64) (ht : t < numThreads) :
    start total numThreads t = border total numThreads t := by
  have hle := mul_chunk_le total ht.le
  rw [start, border, if_pos ht, Nat.mod_eq_of_lt (by omega)]

theorem stop_eq (htotal : total < 2 ^ 64) (ht : t < numThreads) :
    stop total numThreads t = border total numThreads (t + 1) := by
  rw [stop, start_eq htotal ht]
  unfold border
  by_cases hlast : t = numThreads - 1
  · rw [if_pos hlast, if_neg (by omega)]
  · have hle := mul_chunk_le total (show t + 1 ≤ numThreads from ht)
    rw [Nat.add_mul, Nat.one_mul] at hle
    rw [if_neg hlast, if_pos ht, if_pos (by omega), Nat.add_mul, Nat.one_mul,
      Nat.mod_eq_of_lt (by omega)]

theorem border_mono (total numThreads : ℕ) : Monotone (border total numThreads) := by
  refine monotone_nat_of_le_succ fun t => ?_
  unfold border
  split
  · rename_i ht
    split
    · exact Nat.mul_le_mul_right _ t.le_succ
    · exact mul_chunk_le total ht.le
  · rw [if_neg (by omega)]

/-- Consecutive ranges of numbers, put together. -/
theorem flatten_ranges {b : ℕ → ℕ} (hb : Monotone b) (n : ℕ) :
    ((List.range n).map fun t => List.range' (b t) (b (t + 1) - b t)).flatten =
      List.range' (b 0) (b n - b 0) := by
  induction n with
  | zero => simp
  | succ n ih =>
    have h0 : b 0 ≤ b n := hb (Nat.zero_le n)
    have hn : b n ≤ b (n + 1) := hb n.le_succ
    rw [List.range_succ, List.map_append, List.flatten_append, ih, List.map_singleton,
      List.flatten_singleton]
    rw [show b (n + 1) - b 0 = (b n - b 0) + (b (n + 1) - b n) by omega, ← List.range'_append_1,
      Nat.add_sub_cancel' h0]

theorem flatten_chunks (hpos : 0 < numThreads) (htotal : total < 2 ^ 64) :
    ((List.range numThreads).map fun t => List.range' (start total numThreads t)
      (stop total numThreads t - start total numThreads t)).flatten = List.range total := by
  have hchunks : (List.range numThreads).map (fun t => List.range' (start total numThreads t)
      (stop total numThreads t - start total numThreads t)) =
      (List.range numThreads).map fun t => List.range' (border total numThreads t)
        (border total numThreads (t + 1) - border total numThreads t) := by
    refine List.map_congr_left fun t ht => ?_
    have hlt := List.mem_range.mp ht
    rw [start_eq htotal hlt, stop_eq htotal hlt]
  rw [hchunks, flatten_ranges (border_mono total numThreads)]
  simp [border, hpos, List.range_eq_range']

theorem start_le_stop (htotal : total < 2 ^ 64) (ht : t < numThreads) :
    start total numThreads t ≤ stop total numThreads t := by
  rw [start_eq htotal ht, stop_eq htotal ht]
  exact border_mono total numThreads t.le_succ

/-! ## The threads -/

/-- The threads that have been started, and for each of them its loop variable and its vector of
row numbers. -/
structure Scanning where
  started : ℕ
  next : ℕ → ℕ
  partialRows : ℕ → List ℕ

/-- Nothing was started. -/
def Scanning.init : Scanning := ⟨0, fun _ => 0, fun _ => []⟩

/-- What happens next: another thread is started, or a thread takes a round of its loop. -/
inductive Choice
  | spawn
  | advance (t : ℕ)
  deriving DecidableEq, Repr

/-- A choice that is not possible in a state is an error. -/
def step (total numThreads : ℕ) (s : Scanning) : Choice → Except Unit Scanning
  | .spawn =>
    if s.started < numThreads then
      .ok { s with
        started := s.started + 1
        next := Function.update s.next s.started (start total numThreads s.started) }
    else .error ()
  | .advance t =>
    if t < s.started ∧ s.next t < stop total numThreads t then
      .ok { s with
        next := Function.update s.next t (s.next t + 1)
        partialRows := Function.update s.partialRows t (s.partialRows t ++ [s.next t]) }
    else .error ()

/-- All threads have ended. -/
def Joined (total numThreads : ℕ) (s : Scanning) : Prop :=
  s.started = numThreads ∧ ∀ t < numThreads, stop total numThreads t ≤ s.next t

/-- The vectors, put together. -/
def result (numThreads : ℕ) (s : Scanning) : List ℕ :=
  ((List.range numThreads).map s.partialRows).flatten

/-- Every thread has the beginning of its chunk. -/
structure Scans (total numThreads : ℕ) (s : Scanning) : Prop where
  started_le : s.started ≤ numThreads
  next_le : ∀ t < s.started, start total numThreads t ≤ s.next t ∧
    s.next t ≤ stop total numThreads t
  rows : ∀ t < s.started, s.partialRows t =
    List.range' (start total numThreads t) (s.next t - start total numThreads t)
  waiting : ∀ t, s.started ≤ t → s.partialRows t = []

variable {s s' : Scanning}

theorem init_scans (total numThreads : ℕ) : Scans total numThreads .init :=
  ⟨Nat.zero_le _, by simp [Scanning.init], by simp [Scanning.init], fun _ _ => rfl⟩

/-- The two choices that are possible. -/
theorem step_cases {c : Choice} (h : step total numThreads s c = .ok s') :
    (s.started < numThreads ∧ s' = { s with
        started := s.started + 1
        next := Function.update s.next s.started (start total numThreads s.started) }) ∨
      ∃ t, t < s.started ∧ s.next t < stop total numThreads t ∧ s' = { s with
        next := Function.update s.next t (s.next t + 1)
        partialRows := Function.update s.partialRows t (s.partialRows t ++ [s.next t]) } := by
  cases c with
  | spawn =>
    by_cases hlt : s.started < numThreads
    · simp only [step, if_pos hlt, Except.ok.injEq] at h
      exact Or.inl ⟨hlt, h.symm⟩
    · simp [step, hlt] at h
  | advance t =>
    by_cases hlt : t < s.started ∧ s.next t < stop total numThreads t
    · simp only [step, if_pos hlt, Except.ok.injEq] at h
      exact Or.inr ⟨t, hlt.1, hlt.2, h.symm⟩
    · simp [step, hlt] at h

/-- One choice. -/
theorem Scans.of_step (h : Scans total numThreads s) (htotal : total < 2 ^ 64) {c : Choice}
    (hstep : step total numThreads s c = .ok s') : Scans total numThreads s' := by
  rcases step_cases hstep with ⟨hlt, rfl⟩ | ⟨t, hstarted, hnext, rfl⟩
  · refine ⟨hlt, ?_, ?_, ?_⟩
    · intro t ht
      dsimp only
      rcases Nat.lt_succ_iff_lt_or_eq.mp ht with ht | rfl
      · rw [Function.update_of_ne (by omega)]
        exact h.next_le t ht
      · rw [Function.update_self]
        exact ⟨le_rfl, start_le_stop htotal hlt⟩
    · intro t ht
      dsimp only
      rcases Nat.lt_succ_iff_lt_or_eq.mp ht with ht | rfl
      · rw [Function.update_of_ne (by omega)]
        exact h.rows t ht
      · rw [Function.update_self, Nat.sub_self]
        exact h.waiting _ le_rfl
    · exact fun t ht => h.waiting t (Nat.le_of_succ_le ht)
  · obtain ⟨hle, -⟩ := h.next_le t hstarted
    refine ⟨h.started_le, ?_, ?_, ?_⟩
    · intro t' ht'
      dsimp only
      by_cases heq : t' = t
      · subst heq
        rw [Function.update_self]
        omega
      · rw [Function.update_of_ne heq]
        exact h.next_le t' ht'
    · intro t' ht'
      dsimp only
      by_cases heq : t' = t
      · subst heq
        rw [Function.update_self, Function.update_self, h.rows t' ht',
          show s.next t' + 1 - start total numThreads t' =
            s.next t' - start total numThreads t' + 1 by omega,
          List.range'_concat, Nat.one_mul, Nat.add_sub_cancel' hle]
      · rw [Function.update_of_ne heq, Function.update_of_ne heq]
        exact h.rows t' ht'
    · intro t' ht'
      have hle' : s.started ≤ t' := ht'
      dsimp only
      rw [Function.update_of_ne (by omega)]
      exact h.waiting t' hle'

/-- Threads that have ended have all of their chunks. -/
theorem Scans.result_eq (h : Scans total numThreads s) (hpos : 0 < numThreads)
    (htotal : total < 2 ^ 64) (hjoined : Joined total numThreads s) :
    result numThreads s = List.range total := by
  rw [← flatten_chunks hpos htotal, result]
  congr 1
  refine List.map_congr_left fun t ht => ?_
  have hlt := List.mem_range.mp ht
  obtain ⟨hstarted, hstop⟩ := hjoined
  rw [h.rows t (by omega), le_antisymm (h.next_le t (by omega)).2 (hstop t hlt)]

/-- Unless all threads have ended, something is possible. -/
theorem Scans.exists_step (h : Scans total numThreads s) (hjoined : ¬ Joined total numThreads s) :
    ∃ c s', step total numThreads s c = .ok s' := by
  by_cases hstarted : s.started < numThreads
  · exact ⟨.spawn, _, if_pos hstarted⟩
  · have heq : s.started = numThreads := le_antisymm h.started_le (Nat.le_of_not_lt hstarted)
    obtain ⟨t, ht, hlt⟩ : ∃ t < numThreads, s.next t < stop total numThreads t := by
      by_contra hno
      push Not at hno
      exact hjoined ⟨heq, hno⟩
    exact ⟨.advance t, _, if_pos ⟨heq ▸ ht, hlt⟩⟩

/-! ## Runs -/

/-- The number of choices that lead to a state. -/
def choicesTaken (numThreads : ℕ) (s : Scanning) : ℕ :=
  s.started + ∑ t ∈ Finset.range numThreads, (s.partialRows t).length

theorem Scans.choicesTaken_of_step (h : Scans total numThreads s) {c : Choice}
    (hstep : step total numThreads s c = .ok s') :
    choicesTaken numThreads s' = choicesTaken numThreads s + 1 := by
  rcases step_cases hstep with ⟨-, rfl⟩ | ⟨t, hstarted, -, rfl⟩
  · simp only [choicesTaken]
    omega
  · have hmem : t ∈ Finset.range numThreads :=
      Finset.mem_range.mpr (hstarted.trans_le h.started_le)
    have hlength : ∀ t', (Function.update s.partialRows t (s.partialRows t ++ [s.next t]) t').length =
        (s.partialRows t').length + if t' = t then 1 else 0 := by
      intro t'
      by_cases heq : t' = t
      · subst heq
        simp
      · simp [heq]
    simp only [choicesTaken, hlength, Finset.sum_add_distrib, Finset.sum_ite_eq',
      if_pos hmem]
    omega

theorem Scans.choicesTaken_le (h : Scans total numThreads s) (hpos : 0 < numThreads)
    (htotal : total < 2 ^ 64) : choicesTaken numThreads s ≤ numThreads + total := by
  have hrows : ∑ t ∈ Finset.range numThreads, (s.partialRows t).length ≤
      ∑ t ∈ Finset.range numThreads, (stop total numThreads t - start total numThreads t) := by
    refine Finset.sum_le_sum fun t _ => ?_
    by_cases ht : t < s.started
    · have := (h.next_le t ht).2
      rw [h.rows t ht, List.length_range']
      omega
    · simp [h.waiting t (Nat.le_of_not_lt ht)]
  have hlength := congrArg List.length (flatten_chunks hpos htotal)
  rw [List.length_flatten, List.map_map, List.length_range] at hlength
  have hsum : ∑ t ∈ Finset.range numThreads, (stop total numThreads t - start total numThreads t) =
      total := by
    have hlengths : (List.length ∘ fun t => List.range' (start total numThreads t)
        (stop total numThreads t - start total numThreads t)) =
        fun t => stop total numThreads t - start total numThreads t := by
      funext t
      simp
    rw [hlengths] at hlength
    exact hlength
  have hstarted := h.started_le
  unfold choicesTaken
  omega

theorem Scans.of_run (h : Scans total numThreads s) (htotal : total < 2 ^ 64) {choices : List Choice}
    (hrun : run (step total numThreads) s choices = .ok s') :
    Scans total numThreads s' ∧
      choicesTaken numThreads s' = choicesTaken numThreads s + choices.length := by
  induction choices generalizing s with
  | nil =>
    cases hrun
    exact ⟨h, rfl⟩
  | cons c choices ih =>
    cases hstep : step total numThreads s c with
    | error e => simp [run_cons_of_error _ hstep] at hrun
    | ok u =>
      rw [run_cons_of_ok _ hstep] at hrun
      obtain ⟨hscans, htaken⟩ := ih (h.of_step htotal hstep) hrun
      refine ⟨hscans, ?_⟩
      rw [htaken, h.choicesTaken_of_step hstep, List.length_cons]
      omega

/-- The threads can always go on until all of them have ended. -/
theorem Scans.exists_joined (h : Scans total numThreads s) (hpos : 0 < numThreads)
    (htotal : total < 2 ^ 64) :
    ∃ choices s', run (step total numThreads) s choices = .ok s' ∧ Joined total numThreads s' := by
  induction hn : numThreads + total - choicesTaken numThreads s generalizing s with
  | zero =>
    by_cases hjoined : Joined total numThreads s
    · exact ⟨[], s, rfl, hjoined⟩
    · obtain ⟨c, u, hstep⟩ := h.exists_step hjoined
      have htaken := h.choicesTaken_of_step hstep
      have hle := (h.of_step htotal hstep).choicesTaken_le hpos htotal
      omega
  | succ n ih =>
    by_cases hjoined : Joined total numThreads s
    · exact ⟨[], s, rfl, hjoined⟩
    · obtain ⟨c, u, hstep⟩ := h.exists_step hjoined
      have htaken := h.choicesTaken_of_step hstep
      obtain ⟨choices, s', hrun, hjoined'⟩ := ih (h.of_step htotal hstep) (by omega)
      exact ⟨c :: choices, s', (run_cons_of_ok _ hstep).trans hrun, hjoined'⟩

end ParallelScanner

/-! ## The row counts of a reader -/

namespace ColumnReader

/-- The pages that were counted are mapped, and the count fits 64 bits as long as there are not too
many of them. -/
theorem sumItems_ok {cache cache' : CacheManager} {mem : ByteMemory} {pages : List ℕ} {n total : ℕ}
    (h : ColumnStore.sumItems cache mem pages n = .ok (total, cache')) :
    total ≤ n + pages.length * 2 ^ 32 ∧
      ∀ page ∈ pages, page < cache.numPages →
        mapped (some (pageOffset page)) ≠ .error .unmapped := by
  induction pages generalizing cache n with
  | nil =>
    cases h
    simp
  | cons page pages ih =>
    obtain ⟨off, hoff, h⟩ := bind_eq_ok h
    obtain ⟨hle, hmapped⟩ := ih h
    have hitems : numItems mem off < 2 ^ 32 := by
      have := ByteMemory.decode_lt (mem.read off 4)
      rw [ByteMemory.read_length] at this
      exact this
    refine ⟨by rw [List.length_cons]; omega, ?_⟩
    intro page' hpage' hlt
    rcases List.mem_cons.mp hpage' with rfl | hpage'
    · have hpage : mapped (cache.getPage page').1 = .ok off := hoff
      rw [CacheManager.getPage_of_lt hlt] at hpage
      rw [hpage]
      exact fun h => (by cases h)
    · exact hmapped page' hpage' (hlt.trans_eq (CacheManager.getPage_numPages cache page).symm)

theorem getTotalRows_lt {cache cache' : CacheManager} {mem : ByteMemory} {total : ℕ}
    (h : getTotalRows cache mem = .ok (total, cache')) : total < 2 ^ 64 := by
  obtain ⟨hle, hmapped⟩ := sumItems_ok h
  rw [List.length_range] at hle
  have hnum : cache.numPages ≤ mappedPages := by
    by_contra hlt
    have hnum := Nat.lt_of_not_le hlt
    exact hmapped mappedPages (List.mem_range.mpr hnum) hnum mapped_end
  calc total ≤ 0 + cache.numPages * 2 ^ 32 := hle
    _ ≤ 0 + mappedPages * 2 ^ 32 := Nat.add_le_add_left (Nat.mul_le_mul_right _ hnum) 0
    _ < 2 ^ 64 := by decide

end ColumnReader

/-- However the threads are scheduled, they all end after a bounded number of steps, and the vectors
together are then the row numbers in their order, as one thread finds them. -/
theorem parallelScan_eq_scanAll (cache cache' : CacheManager) (mem : ByteMemory) (total numThreads : ℕ)
    (htotal : ColumnReader.getTotalRows cache mem = .ok (total, cache')) (hpos : 1 ≤ numThreads) :
    RealScanner.scanAll cache mem = .ok (List.range total, cache') ∧
      (∃ choices s, run (ParallelScanner.step total numThreads) .init choices = .ok s ∧
        ParallelScanner.Joined total numThreads s) ∧
      ∀ choices s, run (ParallelScanner.step total numThreads) .init choices = .ok s →
        choices.length ≤ numThreads + total ∧
        (ParallelScanner.Joined total numThreads s →
          ParallelScanner.result numThreads s = List.range total) ∧
        (¬ ParallelScanner.Joined total numThreads s →
          ∃ c s', ParallelScanner.step total numThreads s c = .ok s') := by
  have hlt := ColumnReader.getTotalRows_lt htotal
  have hinit := ParallelScanner.init_scans total numThreads
  refine ⟨?_, hinit.exists_joined hpos hlt, fun choices s hrun => ?_⟩
  · simp only [RealScanner.scanAll, htotal, Bind.bind, Except.bind, Pure.pure, Except.pure]
  · obtain ⟨hscans, htaken⟩ := hinit.of_run hlt hrun
    have hle := hscans.choicesTaken_le hpos hlt
    have hzero : ParallelScanner.choicesTaken numThreads .init = 0 := by
      simp [ParallelScanner.choicesTaken, ParallelScanner.Scanning.init]
    exact ⟨by omega, hscans.result_eq hpos hlt, hscans.exists_step⟩

/-- Three rows, and two threads. -/
theorem parallelScan_eq_scanAll_three :
    ∃ st cache', run ColumnStore.insertStep (⟨[], .init 256, 0, none, noPage⟩, fun _ => 0)
        [[1], [2], [3]] = .ok st ∧
      RealScanner.scanAll st.1.cache st.2 = .ok ([0, 1, 2], cache') ∧
      ∀ choices s, run (ParallelScanner.step 3 2) .init choices = .ok s →
        ParallelScanner.Joined 3 2 s → ParallelScanner.result 2 s = [0, 1, 2] := by
  have hend : (do
      let st ← run ColumnStore.insertStep (⟨[], .init 256, 0, none, noPage⟩, fun _ => 0)
        [[1], [2], [3]]
      let counted ← ColumnReader.getTotalRows st.1.cache st.2
      return counted.1) = (.ok 3 : Except Fault ℕ) := by decide +kernel
  obtain ⟨st, hst, hend⟩ := bind_eq_ok hend
  obtain ⟨⟨total, cache'⟩, htotal, hend⟩ := bind_eq_ok hend
  cases hend
  obtain ⟨hall, -, hruns⟩ := parallelScan_eq_scanAll st.1.cache cache' st.2 3 2 htotal (by decide)
  exact ⟨st, cache', hst, hall, fun choices s hrun hjoined => (hruns choices s hrun).2.1 hjoined⟩

end FlexQL
