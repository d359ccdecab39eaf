import FlexQL.Lib.Runs
import Mathlib.Order.Defs.PartialOrder

/-!
# Independent steps

Every input of a machine belongs to a component, and steps on different components can be
exchanged. Then the result of a run depends on the order of the inputs of each component only, and
not on how the components are interleaved.
-/

namespace Traces

open Runs

variable {σ ε ι κ : Type*} [DecidableEq κ]

/-- The inputs of one component, in their order. -/
def proj (comp : ι → κ) (c : κ) (l : List ι) : List ι := l.filter fun i => comp i = c

variable {step : σ → ι → Except ε σ} {comp : ι → κ} {inv : σ → Prop}

@[simp] theorem proj_nil (comp : ι → κ) (c : κ) : proj comp c [] = [] := rfl

@[simp] theorem proj_append (comp : ι → κ) (c : κ) (l l' : List ι) :
    proj comp c (l ++ l') = proj comp c l ++ proj comp c l' := List.filter_append ..

theorem proj_cons_of_eq {i : ι} {c : κ} (h : comp i = c) (l : List ι) :
    proj comp c (i :: l) = i :: proj comp c l := List.filter_cons_of_pos (by simpa using h)

theorem proj_cons_of_ne {i : ι} {c : κ} (h : comp i ≠ c) (l : List ι) :
    proj comp c (i :: l) = proj comp c l := List.filter_cons_of_neg (by simpa using h)

theorem proj_eq_nil {c : κ} {l : List ι} (h : ∀ i ∈ l, comp i ≠ c) : proj comp c l = [] :=
  List.filter_eq_nil_iff.mpr (by simpa using h)

theorem proj_eq_self {c : κ} {l : List ι} (h : ∀ i ∈ l, comp i = c) : proj comp c l = l :=
  List.filter_eq_self.mpr (by simpa using h)

/-- Moving an input in front of inputs of other components changes the order of no component. -/
theorem proj_move {i : ι} {l : List ι} (h : ∀ j ∈ l, comp i ≠ comp j) (c : κ) :
    proj comp c (l ++ [i]) = proj comp c (i :: l) := by
  by_cases hc : comp i = c
  · have hl : proj comp c l = [] := proj_eq_nil fun j hj heq => h j hj (hc.trans heq.symm)
    rw [proj_append, hl, proj_cons_of_eq hc, proj_cons_of_eq hc, hl]
    rfl
  · rw [proj_append, proj_cons_of_ne hc, proj_cons_of_ne hc, proj_nil, List.append_nil]

/-- In the states of an invariant, two steps on different components may be exchanged. -/
structure Independent (step : σ → ι → Except ε σ) (comp : ι → κ) (inv : σ → Prop) : Prop where
  keeps : ∀ s i t, inv s → step s i = .ok t → inv t
  swap : ∀ s i j t u, inv s → comp i ≠ comp j → step s i = .ok t → step t j = .ok u →
    ∃ t', step s j = .ok t' ∧ step t' i = .ok u

omit [DecidableEq κ] in
theorem Independent.keeps_run (h : Independent step comp inv) {l : List ι} {s t : σ} (hinv : inv s)
    (hrun : run step s l = .ok t) : inv t :=
  run_induction inv h.keeps hinv hrun

omit [DecidableEq κ] in
/-- A step may be taken before steps on other components. -/
theorem Independent.move_front (h : Independent step comp inv) {pre post : List ι} {j : ι} {s t : σ}
    (hinv : inv s) (hpre : ∀ i ∈ pre, comp i ≠ comp j) (hrun : run step s (pre ++ j :: post) = .ok t) :
    run step s (j :: (pre ++ post)) = .ok t := by
  induction pre generalizing s with
  | nil => exact hrun
  | cons i pre ih =>
    cases hi : step s i with
    | error e => simp [run_cons_of_error _ hi] at hrun
    | ok u =>
      rw [List.cons_append, run_cons_of_ok _ hi] at hrun
      have hfront := ih (h.keeps s i u hinv hi)
        (fun i' hi' => hpre i' (List.mem_cons_of_mem _ hi')) hrun
      cases hj : step u j with
      | error e => simp [run_cons_of_error _ hj] at hfront
      | ok v =>
        rw [run_cons_of_ok _ hj] at hfront
        obtain ⟨u', hu', hv⟩ := h.swap s i j u v hinv (hpre i List.mem_cons_self) hi hj
        rw [run_cons_of_ok _ hu', List.cons_append, run_cons_of_ok _ hv]
        exact hfront

/-- The first input of a list, in another list with the same inputs for each component. -/
theorem exists_proj_cons {l l' : List ι} {j : ι} (hproj : ∀ c, proj comp c l = proj comp c (j :: l')) :
    ∃ pre post, l = pre ++ j :: post ∧ (∀ i ∈ pre, comp i ≠ comp j) ∧
      ∀ c, proj comp c (pre ++ post) = proj comp c l' := by
  have hcons := hproj (comp j)
  rw [proj_cons_of_eq rfl, proj, List.filter_eq_cons_iff] at hcons
  obtain ⟨pre, post, rfl, hpre, -, hpost⟩ := hcons
  have hpre' : ∀ i ∈ pre, comp i ≠ comp j := by simpa using hpre
  refine ⟨pre, post, rfl, hpre', fun c => ?_⟩
  by_cases hc : comp j = c
  · subst hc
    rw [proj_append, proj_eq_nil hpre', List.nil_append]
    exact hpost
  · have hrest := hproj c
    rwa [proj_append, proj_cons_of_ne hc, proj_cons_of_ne hc, ← proj_append] at hrest

/-- Runs with the same inputs for each component end in the same state. -/
theorem Independent.run_eq (h : Independent step comp inv) {l l' : List ι} {s t : σ} (hinv : inv s)
    (hrun : run step s l = .ok t) (hproj : ∀ c, proj comp c l = proj comp c l') :
    run step s l' = .ok t := by
  induction l' generalizing s l with
  | nil =>
    cases l with
    | nil => exact hrun
    | cons i l =>
      have hnil := hproj (comp i)
      rw [proj_cons_of_eq rfl] at hnil
      cases hnil
  | cons j l' ih =>
    obtain ⟨pre, post, rfl, hpre, hrest⟩ := exists_proj_cons hproj
    obtain ⟨u, hu, hrun'⟩ := run_cons_eq_ok (h.move_front hinv hpre hrun)
    rw [run_cons_of_ok _ hu]
    exact ih (h.keeps s j u hinv hu) hrun' hrest

omit [DecidableEq κ] in
/-- A guard that looks at the component of its step only holds for a step that is taken earlier as well. -/
theorem Independent.guarded_front (h : Independent step comp inv) {guard : σ → ι → Prop}
    (hlocal : ∀ s i j t, inv s → comp i ≠ comp j → step s i = .ok t → (guard t j ↔ guard s j))
    {pre post : List ι} {j : ι} {s t : σ} (hinv : inv s) (hpre : ∀ i ∈ pre, comp i ≠ comp j)
    (hrun : run step s (pre ++ j :: post) = .ok t) (hguard : Guarded step guard s (pre ++ j :: post)) :
    Guarded step guard s (j :: (pre ++ post)) := by
  induction pre generalizing s with
  | nil => exact hguard
  | cons i pre ih =>
    have hij := hpre i List.mem_cons_self
    obtain ⟨u, hi, hrest⟩ := run_cons_eq_ok hrun
    have hpre' := fun i' hi' => hpre i' (List.mem_cons_of_mem _ hi')
    have hinv' := h.keeps s i u hinv hi
    obtain ⟨hj, hbehind⟩ := ih hinv' hpre' hrest (hguard.2 u hi)
    obtain ⟨v, hv, -⟩ := run_cons_eq_ok (h.move_front hinv' hpre' hrest)
    obtain ⟨u', hu', hv'⟩ := h.swap s i j u v hinv hij hi hv
    refine ⟨(hlocal s i j u hinv hij hi).mp hj, fun w hw => ?_⟩
    obtain rfl : u' = w := Except.ok.inj (hu'.symm.trans hw)
    refine ⟨(hlocal s j i u' hinv hij.symm hu').mpr hguard.1, fun w' hw' => ?_⟩
    obtain rfl : v = w' := Except.ok.inj (hv'.symm.trans hw')
    exact hbehind v hv

/-- Such a guard holds along the other order of the inputs, too. -/
theorem Independent.guarded_of_proj (h : Independent step comp inv) {guard : σ → ι → Prop}
    (hlocal : ∀ s i j t, inv s → comp i ≠ comp j → step s i = .ok t → (guard t j ↔ guard s j))
    {l l' : List ι} {s t : σ} (hinv : inv s) (hrun : run step s l = .ok t)
    (hguard : Guarded step guard s l) (hproj : ∀ c, proj comp c l = proj comp c l') :
    Guarded step guard s l' := by
  induction l' generalizing s l with
  | nil => trivial
  | cons j l' ih =>
    obtain ⟨pre, post, rfl, hpre, hrest⟩ := exists_proj_cons hproj
    obtain ⟨hj, hbehind⟩ := h.guarded_front hlocal hinv hpre hrun hguard
    obtain ⟨u, hu, hrun'⟩ := run_cons_eq_ok (h.move_front hinv hpre hrun)
    refine ⟨hj, fun v hv => ?_⟩
    obtain rfl : u = v := Except.ok.inj (hu.symm.trans hv)
    exact ih (h.keeps s j u hinv hu) hrun' (hbehind u hu) hrest

/-! ## One component after the other -/

/-- The inputs of the components `cs`, one component after the other. -/
def blocks (comp : ι → κ) (cs : List κ) (l : List ι) : List ι := cs.flatMap fun c => proj comp c l

theorem comp_of_mem_proj {c : κ} {i : ι} {l : List ι} (h : i ∈ proj comp c l) : comp i = c := by
  simpa using (List.mem_filter.mp h).2

theorem proj_blocks_of_notMem {cs : List κ} {c : κ} (h : c ∉ cs) (l : List ι) :
    proj comp c (blocks comp cs l) = [] := by
  refine proj_eq_nil fun i hi => ?_
  obtain ⟨c', hc', hmem⟩ := List.mem_flatMap.mp hi
  rw [comp_of_mem_proj hmem]
  rintro rfl
  exact h hc'

/-- Each component keeps its inputs. -/
theorem proj_blocks {cs : List κ} {l : List ι} (hcs : cs.Nodup) (hcover : ∀ i ∈ l, comp i ∈ cs) (c : κ) :
    proj comp c l = proj comp c (blocks comp cs l) := by
  by_cases hc : c ∈ cs
  · obtain ⟨before, behind, rfl⟩ := List.append_of_mem hc
    obtain ⟨-, hbehind, hbefore⟩ := List.nodup_append.mp hcs
    have hnotBefore : c ∉ before := fun hmem => hbefore c hmem c List.mem_cons_self rfl
    have hsplit : blocks comp (before ++ c :: behind) l =
        blocks comp before l ++ (proj comp c l ++ blocks comp behind l) := by
      simp only [blocks, List.flatMap_append, List.flatMap_cons]
    rw [hsplit, proj_append, proj_append, proj_blocks_of_notMem hnotBefore, proj_eq_self fun i => comp_of_mem_proj,
      proj_blocks_of_notMem (List.nodup_cons.mp hbehind).1, List.append_nil, List.nil_append]
  · rw [proj_blocks_of_notMem hc]
    refine proj_eq_nil fun i hi heq => hc ?_
    rw [← heq]
    exact hcover i hi

/-- Lists with the same inputs for each component are permutations of each other. -/
theorem perm_of_proj {l l' : List ι} (h : ∀ c, proj comp c l = proj comp c l') : l.Perm l' := by
  classical
  refine List.perm_iff_count.mpr fun i => ?_
  have hcount : ∀ l : List ι, (proj comp (comp i) l).count i = l.count i :=
    fun l => List.count_filter (by simp)
  rw [← hcount l, ← hcount l', h]

section Sorted

variable [PartialOrder κ]

/-- In the order of their components, lists with the same inputs for each component are the same. -/
theorem eq_of_proj {l l' : List ι} (hl : (l.map comp).Pairwise (· ≤ ·)) (hl' : (l'.map comp).Pairwise (· ≤ ·))
    (h : ∀ c, proj comp c l = proj comp c l') : l = l' := by
  induction l' generalizing l with
  | nil => exact List.perm_nil.mp (perm_of_proj h)
  | cons j l' ih =>
    obtain ⟨pre, post, rfl, hpre, hrest⟩ := exists_proj_cons h
    rw [List.map_cons, List.pairwise_cons] at hl'
    have hnone : pre = [] := by
      refine List.eq_nil_iff_forall_not_mem.mpr fun i hi => hpre i hi (le_antisymm ?_ ?_)
      · rw [List.map_append, List.pairwise_append] at hl
        exact hl.2.2 _ (List.mem_map_of_mem hi) _ (List.mem_map_of_mem List.mem_cons_self)
      · have hmem : i ∈ l' := (perm_of_proj hrest).mem_iff.mp (List.mem_append_left post hi)
        exact hl'.1 _ (List.mem_map_of_mem hmem)
    subst hnone
    rw [List.nil_append, List.map_cons, List.pairwise_cons] at hl
    rw [List.nil_append, ih hl.2 hl'.2 hrest]

theorem sorted_blocks {cs : List κ} (hcs : cs.Pairwise (· ≤ ·)) (l : List ι) :
    ((blocks comp cs l).map comp).Pairwise (· ≤ ·) := by
  rw [blocks, List.map_flatMap, List.pairwise_flatMap]
  refine ⟨fun c _ => ?_, hcs.imp fun hle x hx y hy => ?_⟩
  · refine List.pairwise_map.mpr (List.pairwise_of_forall_mem_list fun x hx y hy => ?_)
    rw [comp_of_mem_proj hx, comp_of_mem_proj hy]
  · obtain ⟨i, hi, rfl⟩ := List.mem_map.mp hx
    obtain ⟨j, hj, rfl⟩ := List.mem_map.mp hy
    rwa [comp_of_mem_proj hi, comp_of_mem_proj hj]

end Sorted

end Traces
