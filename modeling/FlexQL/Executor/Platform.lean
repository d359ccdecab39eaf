import FlexQL.Storage.Row
import Mathlib.Data.List.Sort

/-!
# What the executor takes from its platform

The value of a number that was never written, `std::stof` and `std::sort` are parameters of the
executor.
-/

namespace FlexQL

open Text

variable {α : Type} {lt : α → α → Bool} {l : List α}

/-- A comparison that `std::sort` accepts on the elements of a list: irreflexive, transitive, and
with a transitive incomparability. -/
structure StrictWeakOrder (lt : α → α → Bool) (l : List α) : Prop where
  irrefl : ∀ a ∈ l, lt a a = false
  trans : ∀ a ∈ l, ∀ b ∈ l, ∀ c ∈ l, lt a b = true → lt b c = true → lt a c = true
  incomp : ∀ a ∈ l, ∀ b ∈ l, ∀ c ∈ l, lt a b = false → lt b a = false → lt b c = false →
    lt c b = false → lt a c = false ∧ lt c a = false

structure Platform where
  /-- What is found in a number that was never written. -/
  uninitialised : BitVec 64
  /-- The bits of the number, or an exception. -/
  stof : Text → Except Exn (BitVec 32)
  sort : (Row → Row → Bool) → List Row → List Row
  /-- Nothing is compared in a list of at most one element. -/
  sort_short : ∀ lt l, l.length ≤ 1 → sort lt l = l
  sort_perm : ∀ lt l, StrictWeakOrder lt l → (sort lt l).Perm l
  sort_sorted : ∀ lt l, StrictWeakOrder lt l → (sort lt l).Pairwise fun a b => lt b a = false

/-! ## A platform -/

/-- Merge sort of the elements of a list by a comparison that need only make sense for them. -/
def sortBy (lt : α → α → Bool) (l : List α) : List α :=
  (l.attach.mergeSort fun a b => !lt b.1 a.1).map Subtype.val

theorem sortBy_short (h : l.length ≤ 1) : sortBy lt l = l := by
  match l, h with
  | [], _ => simp [sortBy]
  | [a], _ => simp [sortBy]

theorem sortBy_perm (lt : α → α → Bool) (l : List α) : (sortBy lt l).Perm l := by
  have h := (List.mergeSort_perm l.attach fun a b => !lt b.1 a.1).map Subtype.val
  rwa [List.attach_map_subtype_val] at h

theorem StrictWeakOrder.le_trans (h : StrictWeakOrder lt l) {a b c : α} (ha : a ∈ l) (hb : b ∈ l)
    (hc : c ∈ l) (hab : lt b a = false) (hbc : lt c b = false) : lt c a = false := by
  by_contra hca
  rw [Bool.not_eq_false] at hca
  have hab' : lt a b = false := by
    by_contra hab'
    rw [Bool.not_eq_false] at hab'
    simp [h.trans c hc a ha b hb hca hab'] at hbc
  have hbc' : lt b c = false := by
    by_contra hbc'
    rw [Bool.not_eq_false] at hbc'
    simp [h.trans b hb c hc a ha hbc' hca] at hab
  have := (h.incomp a ha b hb c hc hab' hab hbc' hbc).2
  simp [hca] at this

theorem sortBy_sorted (h : StrictWeakOrder lt l) :
    (sortBy lt l).Pairwise fun a b => lt b a = false := by
  have htrans : ∀ a b c : { x // x ∈ l }, (!lt b.1 a.1) = true → (!lt c.1 b.1) = true →
      (!lt c.1 a.1) = true := by
    intro a b c hab hbc
    simp only [Bool.not_eq_true'] at *
    exact h.le_trans a.2 b.2 c.2 hab hbc
  have htotal : ∀ a b : { x // x ∈ l }, ((!lt b.1 a.1) || !lt a.1 b.1) = true := by
    intro a b
    by_contra hne
    simp only [Bool.or_eq_true, Bool.not_eq_true', not_or, Bool.not_eq_false] at hne
    have := h.trans a.1 a.2 b.1 b.2 a.1 a.2 hne.2 hne.1
    simp [h.irrefl a.1 a.2] at this
  have hsorted := List.pairwise_mergeSort htrans htotal l.attach
  exact List.pairwise_map.mpr (hsorted.imp fun hab => by simpa using hab)

/-- A platform on which no text is a floating point number. -/
def Platform.reference : Platform where
  uninitialised := 0
  stof := fun _ => .error .invalidArgument
  sort := sortBy
  sort_short := fun _ _ h => sortBy_short h
  sort_perm := fun lt l _ => sortBy_perm lt l
  sort_sorted := fun _ _ h => sortBy_sorted h

end FlexQL
