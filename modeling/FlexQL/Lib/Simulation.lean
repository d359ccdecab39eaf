import Mathlib.Data.List.Basic

/-!
# Simulation of a specification

A machine answers inputs one after the other, or stops with an error. A specification has a state
that follows the inputs, and says which answers it permits. When no step of the machine stops, and
each answer is permitted and keeps a relation between the two states, the same holds of every run.
-/

namespace Simulation

universe u v

variable {σ o : Type u} {ε : Type v} {τ ι : Type*}

/-- The state behind inputs, and the answers to them. -/
def answers (step : σ → ι → Except ε (σ × o)) : σ → List ι → Except ε (σ × List o)
  | s, [] => .ok (s, [])
  | s, i :: is => do
    let (s, a) ← step s i
    let (s, as) ← answers step s is
    return (s, a :: as)

structure Spec (τ ι : Type*) (o : Type u) where
  next : τ → ι → τ
  /-- The answers to an input, in the state before it. -/
  Permits : τ → ι → o → Prop

namespace Spec

variable (S : Spec τ ι o)

/-- The state behind inputs. -/
def after (t : τ) (is : List ι) : τ := is.foldl S.next t

/-- Every input meets a condition in the state before it. -/
def Meets (guard : τ → ι → Prop) : τ → List ι → Prop
  | _, [] => True
  | t, i :: is => guard t i ∧ Meets guard (S.next t i) is

/-- Every answer is permitted in the state before its input. -/
inductive Allows : τ → List ι → List o → Prop
  | nil (t : τ) : Allows t [] []
  | cons {t : τ} {i : ι} {is : List ι} {a : o} {as : List o} (h : S.Permits t i a)
      (hrest : Allows (S.next t i) is as) : Allows t (i :: is) (a :: as)

variable {S} {t : τ} {is js : List ι} {guard : τ → ι → Prop}

@[simp] theorem after_nil (t : τ) : S.after t [] = t := rfl

@[simp] theorem after_cons (t : τ) (i : ι) (is : List ι) :
    S.after t (i :: is) = S.after (S.next t i) is := rfl

theorem Meets.append (h : S.Meets guard t (is ++ js)) :
    S.Meets guard t is ∧ S.Meets guard (S.after t is) js := by
  induction is generalizing t with
  | nil => exact ⟨trivial, h⟩
  | cons i is ih => exact ⟨⟨h.1, (ih h.2).1⟩, (ih h.2).2⟩

end Spec

/-- Whenever an input meets the condition, the machine gives an answer that is permitted, and the
states stay related. -/
def Simulates (step : σ → ι → Except ε (σ × o)) (S : Spec τ ι o) (guard : τ → ι → Prop)
    (R : σ → τ → Prop) : Prop :=
  ∀ s t i, R s t → guard t i → ∃ s' a, step s i = .ok (s', a) ∧ R s' (S.next t i) ∧ S.Permits t i a

/-- Runs of inputs that meet the condition. -/
theorem Simulates.run {step : σ → ι → Except ε (σ × o)} {S : Spec τ ι o} {guard : τ → ι → Prop}
    {R : σ → τ → Prop} (h : Simulates step S guard R) {s : σ} {t : τ} {is : List ι} (hR : R s t)
    (his : S.Meets guard t is) :
    ∃ s' as, answers step s is = .ok (s', as) ∧ R s' (S.after t is) ∧ S.Allows t is as := by
  induction is generalizing s t with
  | nil => exact ⟨s, [], rfl, hR, .nil t⟩
  | cons i is ih =>
    obtain ⟨s', a, hstep, hR', hpermits⟩ := h s t i hR his.1
    obtain ⟨s'', as, hrun, hR'', hallows⟩ := ih hR' his.2
    refine ⟨s'', a :: as, ?_, hR'', .cons hpermits hallows⟩
    simp only [answers, hstep, hrun, Bind.bind, Except.bind, Pure.pure, Except.pure]

end Simulation
