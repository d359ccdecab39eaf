import Mathlib.Data.List.Basic

/-!
# Computations that may fail

Two rules for sequences of steps that may stop with an error. `Ends` says how one computation can
end. `Lockstep` compares two computations that stop at the same place with the same error, or both
go on with related results.
-/

namespace Fallible

universe u v

variable {α β α' β' : Type u} {ε : Type v}

theorem exists_of_isOk {x : Except ε α} (h : x.isOk = true) : ∃ a, x = .ok a := by
  cases x with
  | ok a => exact ⟨a, rfl⟩
  | error e => cases h

theorem map_eq_ok {x : Except ε α} {f : α → β} {b : β} (h : x.map f = .ok b) :
    ∃ a, x = .ok a ∧ f a = b := by
  cases x with
  | error e => cases h
  | ok a => exact ⟨a, rfl, Except.ok.inj h⟩

theorem map_eq_error {x : Except ε α} {f : α → β} {e : ε} (h : x.map f = .error e) : x = .error e := by
  cases x with
  | error e' =>
    cases h
    rfl
  | ok a => cases h

theorem mapError_eq_ok {ε' : Type*} {x : Except ε α} {f : ε → ε'} {a : α} (h : x.mapError f = .ok a) :
    x = .ok a := by
  cases x with
  | error e => cases h
  | ok b => exact congrArg Except.ok (Except.ok.inj h)

/-- A sequence that ends well has ended well at each step. -/
theorem bind_eq_ok {x : Except ε α} {f : α → Except ε β} {b : β} (h : x >>= f = .ok b) :
    ∃ a, x = .ok a ∧ f a = .ok b := by
  cases x with
  | ok a => exact ⟨a, rfl, h⟩
  | error e => cases h

/-- A computation stops with an error of one kind, or its result has a property. -/
inductive Ends (stop : ε → Prop) (post : α → Prop) : Except ε α → Prop
  | ok {a : α} (h : post a) : Ends stop post (.ok a)
  | error {e : ε} (h : stop e) : Ends stop post (.error e)

theorem Ends.bind {stop : ε → Prop} {mid : α → Prop} {post : β → Prop} {x : Except ε α}
    {f : α → Except ε β} (hx : Ends stop mid x) (hf : ∀ a, mid a → Ends stop post (f a)) :
    Ends stop post (x >>= f) := by
  cases hx with
  | ok h => exact hf _ h
  | error h => exact .error h

theorem Ends.mono {stop stop' : ε → Prop} {mid post : α → Prop} {x : Except ε α}
    (hx : Ends stop mid x) (hstop : ∀ e, stop e → stop' e) (h : ∀ a, mid a → post a) :
    Ends stop' post x := by
  cases hx with
  | ok h' => exact .ok (h _ h')
  | error h' => exact .error (hstop _ h')

theorem Ends.of_ok {stop : ε → Prop} {post : α → Prop} {a : α}
    (h : Ends stop post (.ok a)) : post a := by
  cases h with
  | ok h => exact h

/-- Two computations stop with one error of that kind, or their results are related. -/
inductive Lockstep (stop : ε → Prop) (R : α → β → Prop) : Except ε α → Except ε β → Prop
  | ok {a : α} {b : β} (h : R a b) : Lockstep stop R (.ok a) (.ok b)
  | error {e : ε} (h : stop e) : Lockstep stop R (.error e) (.error e)

variable {stop : ε → Prop}

theorem Lockstep.bind {R : α → β → Prop} {S : α' → β' → Prop} {x : Except ε α} {y : Except ε β}
    {f : α → Except ε α'} {g : β → Except ε β'} (h : Lockstep stop R x y)
    (hfg : ∀ a b, R a b → Lockstep stop S (f a) (g b)) :
    Lockstep stop S (x >>= f) (y >>= g) := by
  cases h with
  | ok h => exact hfg _ _ h
  | error h => exact .error h

theorem Lockstep.mono {stop' : ε → Prop} {R S : α → β → Prop} {x : Except ε α} {y : Except ε β}
    (h : Lockstep stop R x y) (hstop : ∀ e, stop e → stop' e) (hRS : ∀ a b, R a b → S a b) :
    Lockstep stop' S x y := by
  cases h with
  | ok h => exact .ok (hRS _ _ h)
  | error h => exact .error (hstop _ h)

/-- Results that can only be equal make the computations equal. -/
theorem Lockstep.eq {x y : Except ε α} (h : Lockstep stop Eq x y) : x = y := by
  cases h with
  | ok h => rw [h]
  | error h => rfl

/-- A computation compared with itself. -/
theorem Lockstep.ends {R : α → α → Prop} {x : Except ε α} (h : Lockstep stop R x x) :
    Ends stop (fun a => R a a) x := by
  cases x with
  | ok a =>
    cases h with
    | ok h => exact .ok h
  | error e =>
    cases h with
    | error h => exact .error h

end Fallible
