import Mathlib.Computability.Language
import Mathlib.Order.CompletePartialOrder

/-!
# Lists in a grammar

The texts of a list of languages with a separator between neighbours, and languages that are given
by the bytes or by the first byte of their texts.
-/

namespace Language

variable {α : Type*} {ls ms : List (Language α)}

def sepBy (sep : Language α) : List (Language α) → Language α
  | [] => 1
  | [l] => l
  | l :: m :: ls => l * (sep * sepBy sep (m :: ls))

@[simp] theorem sepBy_nil (sep : Language α) : sepBy sep [] = 1 := rfl

@[simp] theorem sepBy_singleton (sep l : Language α) : sepBy sep [l] = l := rfl

theorem sepBy_cons_cons (sep l m : Language α) (ls : List (Language α)) :
    sepBy sep (l :: m :: ls) = l * (sep * sepBy sep (m :: ls)) := rfl

theorem sepBy_mono {sep sep' : Language α} (hsep : sep ≤ sep') (h : List.Forall₂ (· ≤ ·) ls ms) :
    sepBy sep ls ≤ sepBy sep' ms := by
  induction h with
  | nil => exact le_rfl
  | cons hl htail ih =>
    cases htail with
    | nil => exact hl
    | cons hm htail => exact mul_le_mul' hl (mul_le_mul' hsep ih)

/-- A list holds a text of each of its members. -/
theorem exists_infix_of_mem_sepBy {sep l : Language α} {s : List α} (hl : l ∈ ls) (hs : s ∈ sepBy sep ls) :
    ∃ x ∈ l, x <:+: s := by
  induction ls generalizing s with
  | nil => cases hl
  | cons m ls ih =>
    cases ls with
    | nil =>
      obtain rfl := List.mem_singleton.mp hl
      exact ⟨s, hs, List.infix_rfl⟩
    | cons n ls =>
      obtain ⟨y, hy, _, ⟨c, -, r, hr, rfl⟩, rfl⟩ := hs
      rcases List.mem_cons.mp hl with rfl | hl
      · exact ⟨y, hy, [], c ++ r, rfl⟩
      · obtain ⟨x, hx, hin⟩ := ih hl hr
        exact ⟨x, hx, hin.trans ⟨y ++ c, [], by simp⟩⟩

/-- What may stand before the first member may stand before the list. -/
theorem mul_sepBy_cons (sep l m : Language α) (ls : List (Language α)) :
    m * sepBy sep (l :: ls) = sepBy sep ((m * l) :: ls) := by
  cases ls with
  | nil => rfl
  | cons n ls => rw [sepBy_cons_cons, sepBy_cons_cons, mul_assoc]

/-- What may stand behind the last member may stand behind the list. -/
theorem sepBy_append_singleton_mul (sep l m : Language α) (ls : List (Language α)) :
    sepBy sep (ls ++ [l]) * m = sepBy sep (ls ++ [l * m]) := by
  induction ls with
  | nil => rfl
  | cons n ls ih =>
    cases ls with
    | nil =>
      change n * (sep * l) * m = n * (sep * (l * m))
      rw [mul_assoc, mul_assoc]
    | cons o ls =>
      rw [List.cons_append, List.cons_append, sepBy_cons_cons, mul_assoc, mul_assoc,
        ← List.cons_append, ih]
      rfl

/-- Joining texts of the members with one text of the separator, which may be followed by something
that may stand before each member. -/
theorem intercalate_mem_sepBy {sep : Language α} {u v : List α} {ps : List (List α)} (hu : u ∈ sep)
    (h : List.Forall₂ (fun p l => p ∈ l ∧ v ++ p ∈ l) ps ls) :
    (u ++ v).intercalate ps ∈ sepBy sep ls ∧
      (ps ≠ [] → v ++ (u ++ v).intercalate ps ∈ sepBy sep ls) := by
  induction h with
  | nil => exact ⟨rfl, fun h => absurd rfl h⟩
  | @cons p l ps ls hp htail ih =>
    cases htail with
    | nil => simpa using hp
    | @cons q m ps ls hq htail =>
      have hrest := append_mem_mul hu (ih.2 (by simp))
      have hjoin : (u ++ v).intercalate (p :: q :: ps) =
          p ++ (u ++ (v ++ (u ++ v).intercalate (q :: ps))) := by
        simp [List.intercalate_cons_cons]
      rw [hjoin, sepBy_cons_cons]
      refine ⟨append_mem_mul hp.1 hrest, fun _ => ?_⟩
      rw [← List.append_assoc]
      exact append_mem_mul hp.2 hrest

/-! ## Languages of symbols -/

variable {P : α → Prop} {l m : Language α}

/-- All symbols have a property. -/
def within (P : α → Prop) : Language α := {s | ∀ x ∈ s, P x}

/-- The first symbol, if there is one, has a property. -/
def starting (P : α → Prop) : Language α := {s | ∀ x, s.head? = some x → P x}

theorem one_le_within : 1 ≤ within P := by
  rintro _ rfl x hx
  cases hx

theorem mul_le_within (hl : l ≤ within P) (hm : m ≤ within P) : l * m ≤ within P := by
  rintro _ ⟨s, hs, t, ht, rfl⟩ x hx
  rcases List.mem_append.mp hx with hx | hx
  · exact hl hs x hx
  · exact hm ht x hx

theorem sepBy_le_within {sep : Language α} (hsep : sep ≤ within P) (hls : ∀ l ∈ ls, l ≤ within P) :
    sepBy sep ls ≤ within P := by
  induction ls with
  | nil => exact one_le_within
  | cons l ls ih =>
    have hl := hls l List.mem_cons_self
    have hrest := ih fun m hm => hls m (List.mem_cons_of_mem _ hm)
    cases ls with
    | nil => exact hl
    | cons m ls => exact mul_le_within hl (mul_le_within hsep hrest)

theorem one_le_starting : 1 ≤ starting P := by
  rintro _ rfl x hx
  cases hx

theorem mul_le_starting (hl : l ≤ starting P) (hm : m ≤ starting P) : l * m ≤ starting P := by
  rintro _ ⟨s, hs, t, ht, rfl⟩ x hx
  cases s with
  | nil => exact hm ht x hx
  | cons y s => exact hl hs x hx

/-- Behind a non-empty text the first symbol is fixed. -/
theorem mul_le_starting_of_ne_nil (hl : l ≤ starting P) (hne : ∀ s ∈ l, s ≠ []) (m : Language α) :
    l * m ≤ starting P := by
  rintro _ ⟨s, hs, t, -, rfl⟩ x hx
  obtain ⟨y, s, rfl⟩ := List.exists_cons_of_ne_nil (hne s hs)
  exact hl hs x hx

/-- There is a last symbol, and it has a property. -/
def ending (P : α → Prop) : Language α := {s | ∃ x, s.getLast? = some x ∧ P x}

theorem mul_le_ending (l : Language α) (hm : m ≤ ending P) : l * m ≤ ending P := by
  rintro _ ⟨s, -, t, ht, rfl⟩
  obtain ⟨x, hx, hP⟩ := hm ht
  refine ⟨x, ?_, hP⟩
  change (s ++ t).getLast? = some x
  rw [List.getLast?_append, hx, Option.some_or]

/-- An optional part at the end. -/
theorem mul_le_ending_of_or (hl : l ≤ ending P) (hm : m = 1 ∨ m ≤ ending P) : l * m ≤ ending P := by
  rcases hm with rfl | hm
  · rwa [mul_one]
  · exact mul_le_ending l hm

theorem sepBy_le_ending {sep : Language α} (hne : ls ≠ []) (hls : ∀ l ∈ ls, l ≤ ending P) :
    sepBy sep ls ≤ ending P := by
  induction ls with
  | nil => exact absurd rfl hne
  | cons l ls ih =>
    cases ls with
    | nil => exact hls l List.mem_cons_self
    | cons m ls =>
      exact mul_le_ending _ (mul_le_ending _ (ih (by simp) fun n hn => hls n (List.mem_cons_of_mem _ hn)))

end Language
