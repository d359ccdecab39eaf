import FlexQL.Executor.SelectSpec

/-!
# The comparator of `ORDER BY`

One lambda serves both directions, and the descending comparison is the negation of the ascending
one. The negation is not the reverse: two rows with one key come before each other, and a row comes
before itself.
-/

namespace FlexQL.Executor

variable {lt : Row → Row → Bool} {rows : List Row} {schema : Schema} {i : ℕ} {d : ColumnDef} {a b : Row}

/-- What `std::sort` requires of a comparison. -/
structure Lawful (lt : Row → Row → Bool) (rows : List Row) : Prop extends StrictWeakOrder lt rows where
  asymm : ∀ a ∈ rows, ∀ b ∈ rows, lt a b = true → lt b a = false

/-- The comparator is lawful in both directions, and the descending order is the ascending one
backwards. -/
structure OrderingLaws (i : ℕ) (rows : List Row) : Prop where
  lawful : ∀ ascending, Lawful (orderLt ascending i) rows
  reversed : ∀ a ∈ rows, ∀ b ∈ rows, orderLt false i a b = orderLt true i b a

/-- Two rows have one value in the column. -/
def SameKey (d : ColumnDef) (i : ℕ) (a b : Row) : Prop :=
  if d.type = .varchar then textKey i a = textKey i b else intKey i a = intKey i b

/-- Asymmetry follows from the other laws. -/
theorem lawful_of_strictWeakOrder (h : StrictWeakOrder lt rows) : Lawful lt rows where
  toStrictWeakOrder := h
  asymm := by
    intro a ha b hb hab
    by_contra hba
    rw [Bool.not_eq_false] at hba
    have haa := h.trans a ha b hb a ha hab hba
    rw [h.irrefl a ha] at haa
    cases haa

/-- In a linear order, not to be smaller is to be larger just for different elements. -/
theorem not_lt_iff_gt {κ : Type} [LT κ] [LE κ] [Std.IsLinearOrder κ] [Std.LawfulOrderLT κ] (x y : κ) :
    (¬ x < y ↔ y < x) ↔ x ≠ y := by
  constructor
  · rintro h rfl
    exact Std.lt_irrefl (h.mp Std.lt_irrefl)
  · intro hne
    exact ⟨fun h => Std.lt_of_le_of_ne (Std.not_lt.mp h) hne.symm, fun h => Std.not_gt_of_lt h⟩

section Rows

variable (hd : schema[i]? = some d) (hrows : ∀ row ∈ rows, RowFull schema row)

include hd hrows

theorem orderLt_descending (ha : a ∈ rows) (hb : b ∈ rows) :
    orderLt false i a b = !orderLt true i a b := by
  obtain ⟨va, hva, -⟩ := (hrows a ha).exists_value hd
  obtain ⟨vb, hvb, -⟩ := (hrows b hb).exists_value hd
  simp [orderLt, hva, hvb]

/-- A row comes before itself in the descending order. -/
theorem orderLt_descending_self (ha : a ∈ rows) : orderLt false i a a = true := by
  rw [orderLt_descending hd hrows ha ha, (strictWeakOrder_orderLt hd hrows).irrefl a ha]
  rfl

/-- The descending comparison is the reverse of the ascending one for rows with different keys. -/
theorem orderLt_reversed_iff (ha : a ∈ rows) (hb : b ∈ rows) :
    orderLt false i a b = orderLt true i b a ↔ ¬ SameKey d i a b := by
  have hab := orderLt_iff hd hrows ha hb
  have hba := orderLt_iff hd hrows hb ha
  rw [orderLt_descending hd hrows ha hb, SameKey]
  rw [Bool.eq_iff_iff, Bool.not_eq_true', ← Bool.not_eq_true, hab, hba]
  by_cases htype : d.type = .varchar
  · simp only [if_pos htype]
    exact not_lt_iff_gt _ _
  · simp only [if_neg htype]
    exact not_lt_iff_gt _ _

end Rows

/-- The ascending comparator is lawful, and so is the descending one, if there is nothing to compare.
The descending order is the reverse of the ascending one just for rows with different keys. -/
theorem orderingLaws_iff (schema : Schema) (rows : List Row) (i : ℕ) (d : ColumnDef)
    (hd : schema[i]? = some d) (hrows : ∀ row ∈ rows, RowFull schema row) :
    (OrderingLaws i rows ↔ rows = []) ∧ Lawful (orderLt true i) rows ∧
      (Lawful (orderLt false i) rows ↔ rows = []) ∧
      ∀ a ∈ rows, ∀ b ∈ rows, orderLt false i a b = orderLt true i b a ↔ ¬ SameKey d i a b := by
  have hempty : Lawful (orderLt false i) rows → rows = [] := by
    intro h
    rw [List.eq_nil_iff_forall_not_mem]
    intro a ha
    have hself := orderLt_descending_self hd hrows ha
    rw [h.irrefl a ha] at hself
    cases hself
  have hlawful := lawful_of_strictWeakOrder (strictWeakOrder_orderLt hd hrows)
  refine ⟨⟨fun h => hempty (h.lawful false), ?_⟩, hlawful, ⟨hempty, ?_⟩, ?_⟩
  · rintro rfl
    exact ⟨fun _ => ⟨⟨by simp, by simp, by simp⟩, by simp⟩, by simp⟩
  · rintro rfl
    exact ⟨⟨by simp, by simp, by simp⟩, by simp⟩
  · exact fun a ha b hb => orderLt_reversed_iff hd hrows ha hb

/-- Two rows with one number. -/
theorem orderingLaws_iff_tie :
    ¬ OrderingLaws 0 [⟨[⟨.decimal, 7, []⟩]⟩, ⟨[⟨.decimal, 7, []⟩]⟩] ∧
      Lawful (orderLt true 0) [⟨[⟨.decimal, 7, []⟩]⟩, ⟨[⟨.decimal, 7, []⟩]⟩] := by
  have h := orderingLaws_iff [⟨Text.str "BALANCE", .decimal⟩]
    [⟨[⟨.decimal, 7, []⟩]⟩, ⟨[⟨.decimal, 7, []⟩]⟩] 0 _ rfl (by simp [RowFull])
  exact ⟨fun hordering => absurd (h.1.mp hordering) (by simp), h.2.1⟩

/-- The comparator calls each of two equal rows the smaller one. -/
theorem not_orderingLaws_tie : ¬ OrderingLaws 0 [⟨[⟨.decimal, 7, []⟩]⟩, ⟨[⟨.decimal, 7, []⟩]⟩] := by
  intro h
  have hirrefl := (h.lawful false).irrefl ⟨[⟨.decimal, 7, []⟩]⟩ List.mem_cons_self
  revert hirrefl
  decide

end FlexQL.Executor
