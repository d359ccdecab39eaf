import Mathlib.Data.List.Basic

/-!
# Runs of a partial transition function

A machine step may fail with an error. A run applies the steps of a list of inputs one after the
other and stops at the first error. Invariants may mention the inputs consumed so far, and a
guard may restrict the steps that a run takes; the guard is a condition on the state before the
step.
-/

namespace Runs

variable {σ ε ι : Type*} {step : σ → ι → Except ε σ}

/-- Apply the inputs in order, stopping at the first error. -/
def run (step : σ → ι → Except ε σ) : σ → List ι → Except ε σ
  | s, [] => .ok s
  | s, i :: is =>
    match step s i with
    | .error e => .error e
    | .ok t => run step t is

@[simp] theorem run_nil (s : σ) : run step s [] = .ok s := rfl

theorem run_cons_of_ok {s t : σ} {i : ι} (is : List ι) (h : step s i = .ok t) :
    run step s (i :: is) = run step t is := by
  simp only [run, h]

theorem run_cons_of_error {s : σ} {e : ε} {i : ι} (is : List ι) (h : step s i = .error e) :
    run step s (i :: is) = .error e := by
  simp only [run, h]

theorem run_cons_eq_ok {s t : σ} {i : ι} {is : List ι} (h : run step s (i :: is) = .ok t) :
    ∃ u, step s i = .ok u ∧ run step u is = .ok t := by
  cases hi : step s i with
  | error e => cases (run_cons_of_error is hi).symm.trans h
  | ok u => exact ⟨u, rfl, (run_cons_of_ok is hi).symm.trans h⟩

theorem run_append_of_ok {s t : σ} {is : List ι} (js : List ι) (h : run step s is = .ok t) :
    run step s (is ++ js) = run step t js := by
  induction is generalizing s with
  | nil =>
    cases h
    rfl
  | cons i is ih =>
    cases hi : step s i with
    | error e => cases (run_cons_of_error is hi).symm.trans h
    | ok u =>
      rw [run_cons_of_ok _ hi] at h
      rw [List.cons_append, run_cons_of_ok _ hi, ih h]

theorem run_append_of_error {s : σ} {e : ε} {is : List ι} (js : List ι)
    (h : run step s is = .error e) : run step s (is ++ js) = .error e := by
  induction is generalizing s with
  | nil => cases h
  | cons i is ih =>
    cases hi : step s i with
    | error e' =>
      rw [run_cons_of_error _ hi] at h
      rw [List.cons_append, run_cons_of_error _ hi, h]
    | ok u =>
      rw [run_cons_of_ok _ hi] at h
      rw [List.cons_append, run_cons_of_ok _ hi, ih h]

/-- A run that ends in a state has passed through a state after each of its inputs. -/
theorem run_append_eq_ok {s t : σ} {is js : List ι} (h : run step s (is ++ js) = .ok t) :
    ∃ u, run step s is = .ok u ∧ run step u js = .ok t := by
  induction is generalizing s with
  | nil => exact ⟨s, rfl, h⟩
  | cons i is ih =>
    cases hi : step s i with
    | error e => cases (run_cons_of_error (is ++ js) hi).symm.trans h
    | ok u =>
      rw [List.cons_append, run_cons_of_ok _ hi] at h
      rw [run_cons_of_ok _ hi]
      exact ih h

theorem run_singleton (s : σ) (i : ι) : run step s [i] = step s i := by
  cases hi : step s i with
  | error e => exact run_cons_of_error [] hi
  | ok t => exact run_cons_of_ok [] hi

/-- The guard holds before every step that the run takes. -/
def Guarded (step : σ → ι → Except ε σ) (guard : σ → ι → Prop) : σ → List ι → Prop
  | _, [] => True
  | s, i :: is => guard s i ∧ ∀ t, step s i = .ok t → Guarded step guard t is

instance decidableGuarded {guard : σ → ι → Prop} [∀ s i, Decidable (guard s i)] :
    ∀ s is, Decidable (Guarded step guard s is)
  | _, [] => isTrue trivial
  | s, i :: is =>
    match h : step s i with
    | .error e => decidable_of_iff (guard s i)
      ⟨fun hg => ⟨hg, fun t ht => by simp [h] at ht⟩, fun hg => hg.1⟩
    | .ok t =>
      have : Decidable (Guarded step guard t is) := decidableGuarded t is
      decidable_of_iff (guard s i ∧ Guarded step guard t is)
        ⟨fun hg => ⟨hg.1, fun u hu => by simp only [h, Except.ok.injEq] at hu; exact hu ▸ hg.2⟩,
          fun hg => ⟨hg.1, hg.2 t h⟩⟩

theorem guarded_true (s : σ) (is : List ι) : Guarded step (fun _ _ => True) s is := by
  induction is generalizing s with
  | nil => trivial
  | cons i is ih => exact ⟨trivial, fun t _ => ih t⟩

theorem guarded_of_forall {guard : ι → Prop} {is : List ι} (h : ∀ i ∈ is, guard i) (s : σ) :
    Guarded step (fun _ => guard) s is := by
  induction is generalizing s with
  | nil => trivial
  | cons i is ih =>
    exact ⟨h i List.mem_cons_self, fun t _ => ih (fun j hj => h j (List.mem_cons_of_mem _ hj)) t⟩

theorem Guarded.mono {guard guard' : σ → ι → Prop} {s : σ} {is : List ι}
    (h : Guarded step guard s is) (himp : ∀ s i, guard s i → guard' s i) :
    Guarded step guard' s is := by
  induction is generalizing s with
  | nil => trivial
  | cons i is ih => exact ⟨himp s i h.1, fun t ht => ih (h.2 t ht)⟩

theorem Guarded.append {guard : σ → ι → Prop} {s : σ} {is js : List ι}
    (h : Guarded step guard s (is ++ js)) :
    Guarded step guard s is ∧ ∀ t, run step s is = .ok t → Guarded step guard t js := by
  induction is generalizing s with
  | nil =>
    refine ⟨trivial, ?_⟩
    rintro t ⟨⟩
    exact h
  | cons i is ih =>
    refine ⟨⟨h.1, fun t ht => (ih (h.2 t ht)).1⟩, ?_⟩
    intro t ht
    cases hi : step s i with
    | error e => cases (run_cons_of_error is hi).symm.trans ht
    | ok u =>
      rw [run_cons_of_ok _ hi] at ht
      exact (ih (h.2 u hi)).2 t ht

theorem Guarded.concat {guard : σ → ι → Prop} {s t : σ} {is : List ι} {i : ι}
    (h : Guarded step guard s is) (hrun : run step s is = .ok t) (hi : guard t i) :
    Guarded step guard s (is ++ [i]) := by
  induction is generalizing s with
  | nil =>
    cases hrun
    exact ⟨hi, fun _ _ => trivial⟩
  | cons j is ih =>
    obtain ⟨u, hu, hrest⟩ := run_cons_eq_ok hrun
    refine ⟨h.1, fun v hv => ?_⟩
    obtain rfl := Except.ok.inj (hu.symm.trans hv)
    exact ih (h.2 u hu) hrest

/-- The invariant rule. Whenever a guarded step from a state with the invariant either keeps the
invariant or stops with one of the permitted errors, so does every guarded run. -/
theorem Guarded.run_ok_or {guard : σ → ι → Prop} {inv : List ι → σ → Prop} {stop : ε → Prop}
    (hstep : ∀ past s i, inv past s → guard s i →
      (∃ t, step s i = .ok t ∧ inv (past ++ [i]) t) ∨ ∃ e, step s i = .error e ∧ stop e)
    (past : List ι) {is : List ι} {s : σ} (hinv : inv past s) (hg : Guarded step guard s is) :
    (∃ t, run step s is = .ok t ∧ inv (past ++ is) t) ∨
      ∃ e, run step s is = .error e ∧ stop e := by
  induction is generalizing s past with
  | nil => exact Or.inl ⟨s, rfl, by simpa using hinv⟩
  | cons i is ih =>
    rcases hstep past s i hinv hg.1 with ⟨t, ht, hinv'⟩ | ⟨e, he, hstop⟩
    · rw [run_cons_of_ok _ ht]
      simpa using ih _ hinv' (hg.2 t ht)
    · exact Or.inr ⟨e, run_cons_of_error is he, hstop⟩

/-- The invariant rule for guarded runs that are known to end in a state. -/
theorem Guarded.run_induction {guard : σ → ι → Prop} (inv : List ι → σ → Prop)
    (hstep : ∀ past s i t, inv past s → guard s i → step s i = .ok t → inv (past ++ [i]) t)
    {is : List ι} {s t : σ} (hinv : inv [] s) (hg : Guarded step guard s is)
    (h : run step s is = .ok t) : inv is t := by
  have hstep' : ∀ past s i, inv past s → guard s i →
      (∃ t, step s i = .ok t ∧ inv (past ++ [i]) t) ∨ ∃ e, step s i = .error e ∧ True := by
    intro past s i hinv hguard
    cases hi : step s i with
    | error e => exact Or.inr ⟨e, rfl, trivial⟩
    | ok t => exact Or.inl ⟨t, rfl, hstep past s i t hinv hguard hi⟩
  rcases hg.run_ok_or hstep' [] hinv with ⟨u, hu, hinv⟩ | ⟨e, he, -⟩
  · rw [h] at hu
    cases hu
    exact hinv
  · rw [h] at he
    cases he

/-- The invariant rule for runs that are known to end in a state. -/
theorem run_induction (inv : σ → Prop) (hstep : ∀ s i t, inv s → step s i = .ok t → inv t)
    {is : List ι} {s t : σ} (hinv : inv s) (h : run step s is = .ok t) : inv t := by
  induction is generalizing s with
  | nil =>
    cases h
    exact hinv
  | cons i is ih =>
    cases hi : step s i with
    | error e => cases (run_cons_of_error is hi).symm.trans h
    | ok u =>
      rw [run_cons_of_ok _ hi] at h
      exact ih (hstep s i u hinv hi) h

end Runs
