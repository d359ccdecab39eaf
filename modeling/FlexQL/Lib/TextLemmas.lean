import FlexQL.Lib.Text
import Mathlib.Data.List.Induction
import Mathlib.Data.List.TakeWhile

/-!
# Cutting and trimming texts

What the functions on texts do to texts that are put together from parts.
-/

namespace Text

variable {p : UInt8 → Bool} {b d : UInt8} {s l r : Text}

/-! ## C strings -/

theorem cStr_of_nonzero (h : ∀ x ∈ s, x ≠ 0) : cStr s = s :=
  List.takeWhile_eq_self_iff.mpr (by simpa using h)

theorem ne_zero_of_mem_cStr (h : b ∈ cStr s) : b ≠ 0 := by
  simpa using List.mem_takeWhile_imp h

theorem mem_of_mem_cStr (h : b ∈ cStr s) : b ∈ s := (List.takeWhile_sublist _).subset h

/-! ## Cutting -/

theorem cut_eq_none : cut b s = none ↔ b ∉ s := by
  induction s with
  | nil => simp [cut]
  | cons a s ih =>
    by_cases hab : a = b
    · simp [cut, hab]
    · simp [cut, hab, ih, Ne.symm hab]

theorem cut_eq_some : cut b s = some (l, r) ↔ s = l ++ b :: r ∧ b ∉ l := by
  induction s generalizing l with
  | nil => simp [cut]
  | cons a s ih =>
    by_cases hab : a = b
    · subst hab
      cases l with
      | nil => simp [cut, eq_comm]
      | cons c l =>
        simp only [cut, if_true, Option.some.injEq, Prod.mk.injEq, List.cons_append, List.cons.injEq,
          List.mem_cons, not_or]
        constructor
        · rintro ⟨h, -⟩
          cases h
        · rintro ⟨⟨rfl, -⟩, hne, -⟩
          exact absurd rfl hne
    · cases l with
      | nil => simp [cut, hab]
      | cons c l =>
        simp only [cut, hab, if_false, Option.map_eq_some_iff, Prod.mk.injEq, List.cons_append,
          List.cons.injEq, List.mem_cons, not_or]
        constructor
        · rintro ⟨⟨l', r'⟩, hcut, ⟨rfl, rfl⟩, rfl⟩
          obtain ⟨rfl, hl⟩ := ih.mp hcut
          exact ⟨⟨rfl, rfl⟩, Ne.symm hab, hl⟩
        · rintro ⟨⟨rfl, rfl⟩, -, hl⟩
          exact ⟨(l, r), ih.mpr ⟨rfl, hl⟩, ⟨rfl, rfl⟩, rfl⟩

/-! ## Pieces -/

theorem getLines_ne_nil (d : UInt8) (h : s ≠ []) : getLines d s ≠ [] := by
  obtain ⟨a, s, rfl⟩ := List.exists_cons_of_ne_nil h
  unfold getLines
  split
  · simp
  · split <;> simp

/-- `getline` loses an empty piece at the end. -/
theorem getLines_eq (d : UInt8) (s : Text) :
    s.splitOn d = getLines d s ++ (if s = [] ∨ s.getLast? = some d then [[]] else []) := by
  induction s with
  | nil => simp [getLines]
  | cons a s ih =>
    have hlast : (a :: s).getLast? = some d ↔ (s = [] ∧ a = d) ∨ (s ≠ [] ∧ s.getLast? = some d) := by
      cases s with
      | nil => simp
      | cons c s => simp [List.getLast?_cons_cons]
    rw [List.splitOn_cons_eq_if_modifyHead, ih]
    by_cases had : a = d
    · subst had
      by_cases hs : s = []
      · simp [hs, getLines]
      · simp [getLines, hlast, hs]
    · have hbeq : (a == d) = false := beq_eq_false_iff_ne.mpr had
      by_cases hs : s = []
      · simp [hs, getLines, had]
      · simp only [hbeq, getLines, hlast, hs, had, if_false, false_or, and_false, not_false_eq_true,
          true_and, ne_eq, Bool.false_eq_true, reduceCtorEq]
        cases hlines : getLines d s with
        | nil => exact absurd hlines (getLines_ne_nil d hs)
        | cons piece pieces => simp

theorem getLines_eq_splitOn (hne : s ≠ []) (hlast : s.getLast? ≠ some d) :
    getLines d s = s.splitOn d := by
  rw [getLines_eq, if_neg (by simp [hne, hlast]), List.append_nil]

theorem getLines_intercalate {vs : List Text} (hvs : ∀ v ∈ vs, d ∉ v) (hne : vs ≠ [])
    (hlast : ([d].intercalate vs).getLast? ≠ none) (hlast' : ([d].intercalate vs).getLast? ≠ some d) :
    getLines d ([d].intercalate vs) = vs := by
  rw [getLines_eq_splitOn (by simpa using hlast) hlast', List.splitOn_intercalate d hvs hne]

theorem intercalate_getLines (hne : s ≠ []) (hlast : s.getLast? ≠ some d) :
    [d].intercalate (getLines d s) = s := by
  rw [getLines_eq_splitOn hne hlast, List.intercalate_splitOn]

theorem mem_intercalate {vs : List Text} (h : b ∈ [d].intercalate vs) : b = d ∨ ∃ v ∈ vs, b ∈ v := by
  induction vs with
  | nil => simp at h
  | cons v vs ih =>
    cases vs with
    | nil => exact Or.inr ⟨v, by simp, by simpa using h⟩
    | cons w vs =>
      rw [List.intercalate_cons_cons, List.append_assoc, List.mem_append, List.mem_append] at h
      rcases h with h | h | h
      · exact Or.inr ⟨v, by simp, h⟩
      · exact Or.inl (by simpa using h)
      · rcases ih h with h | ⟨u, hu, hb⟩
        · exact Or.inl h
        · exact Or.inr ⟨u, List.mem_cons_of_mem _ hu, hb⟩

theorem mem_getLines {piece : Text} (h : piece ∈ getLines d s) : d ∉ piece ∧ ∀ x ∈ piece, x ∈ s := by
  induction s generalizing piece with
  | nil => simp [getLines] at h
  | cons a s ih =>
    unfold getLines at h
    split at h
    · rcases List.mem_cons.mp h with rfl | h
      · simp
      · exact ⟨(ih h).1, fun x hx => List.mem_cons_of_mem _ ((ih h).2 x hx)⟩
    · rename_i had
      split at h
      · rw [List.mem_singleton] at h
        subst h
        simp [Ne.symm had]
      · rename_i first pieces hlines
        rw [hlines] at ih
        rcases List.mem_cons.mp h with rfl | h
        · have hfirst := ih (List.mem_cons_self (a := first))
          refine ⟨by simp [Ne.symm had, hfirst.1], ?_⟩
          intro x hx
          rcases List.mem_cons.mp hx with rfl | hx
          · exact List.mem_cons_self
          · exact List.mem_cons_of_mem _ (hfirst.2 x hx)
        · have hpiece := ih (List.mem_cons_of_mem _ h)
          exact ⟨hpiece.1, fun x hx => List.mem_cons_of_mem _ (hpiece.2 x hx)⟩

theorem getLines_append (hl : d ∉ l) (s : Text) : getLines d (l ++ d :: s) = l :: getLines d s := by
  induction l with
  | nil => simp [getLines]
  | cons a l ih =>
    rw [List.mem_cons, not_or] at hl
    rw [List.cons_append, getLines, if_neg (Ne.symm hl.1), ih hl.2]

/-! ## Trimming -/

theorem dropEnd_append_of_neg (s : Text) (h : p b = false) : dropEnd p (s ++ [b]) = s ++ [b] := by
  simp [dropEnd, h]

theorem dropEnd_append_of_pos (s : Text) (h : p b = true) : dropEnd p (s ++ [b]) = dropEnd p s := by
  simp [dropEnd, h]

theorem dropEnd_eq_self (h : ∀ x, s.getLast? = some x → p x = false) : dropEnd p s = s := by
  rcases List.eq_nil_or_concat s with rfl | ⟨s, x, rfl⟩
  · rfl
  · rw [List.concat_eq_append] at h ⊢
    exact dropEnd_append_of_neg s (h x (by simp))

theorem getLast?_dropEnd (h : (dropEnd p s).getLast? = some b) : p b = false := by
  rw [dropEnd, List.getLast?_reverse] at h
  have := List.head?_dropWhile_not p s.reverse
  rw [h] at this
  simpa using this

theorem dropEnd_isPrefix (p : UInt8 → Bool) (s : Text) : dropEnd p s <+: s := by
  rw [← List.reverse_suffix, dropEnd, List.reverse_reverse]
  exact List.dropWhile_suffix _

theorem dropEnd_append_prefix (s t : Text) (h : p b = false) :
    ∃ u, dropEnd p (s ++ b :: t) = s ++ b :: u := by
  induction t using List.reverseRecOn with
  | nil => exact ⟨[], dropEnd_append_of_neg s h⟩
  | append_singleton t a ih =>
    by_cases ha : p a = true
    · obtain ⟨u, hu⟩ := ih
      have hdrop := dropEnd_append_of_pos (s ++ b :: t) ha
      exact ⟨u, by simpa [hu] using hdrop⟩
    · refine ⟨t ++ [a], ?_⟩
      have hkeep := dropEnd_append_of_neg (s ++ b :: t) (eq_false_of_ne_true ha)
      simpa using hkeep

/-- White space at the end is trimmed. -/
theorem trim_append_of_pos (s : Text) (h : p b = true) : trim p (s ++ [b]) = trim p s := by
  unfold trim
  by_cases hs : s.dropWhile p = []
  · have hall := List.dropWhile_eq_nil_iff.mp hs
    rw [hs, List.dropWhile_eq_nil_iff.mpr]
    intro x hx
    rcases List.mem_append.mp hx with hx | hx
    · exact hall x hx
    · rwa [List.mem_singleton.mp hx]
  · rw [List.dropWhile_append, if_neg (by simpa using hs), dropEnd_append_of_pos _ h]

/-- A text between two bytes that are not trimmed stays at the front. -/
theorem trim_append_prefix {a : UInt8} (s t : Text) (ha : p a = false) (hb : p b = false) :
    ∃ u, trim p (a :: s ++ b :: t) = a :: s ++ b :: u := by
  rw [trim, List.cons_append, List.dropWhile_cons_of_neg (by simp [ha]), ← List.cons_append]
  exact dropEnd_append_prefix (a :: s) t hb

theorem mem_of_mem_trim (h : b ∈ trim p s) : b ∈ s :=
  (List.dropWhile_suffix _).subset ((dropEnd_isPrefix p _).subset h)

end Text
