import Mathlib.Data.Finset.Card

/-!
# Recency lists

A bounded list without repetitions. The use of an element brings it to the front and drops what then
stands behind the capacity. An element stays until as many others have been used as the list has
places.
-/

namespace Recency

variable {α : Type*} {cap : ℕ} {a q : α} {l as : List α}

/-- At most `cap` elements, without repetitions. -/
structure Bounded (cap : ℕ) (l : List α) : Prop where
  nodup : l.Nodup
  length_le : l.length ≤ cap

theorem bounded_nil : Bounded cap ([] : List α) := ⟨List.nodup_nil, Nat.zero_le _⟩

variable [DecidableEq α]

/-- The list behind the use of an element. -/
def promote (cap : ℕ) (l : List α) (a : α) : List α := (a :: l.erase a).take cap

theorem mem_of_mem_promote (h : q ∈ promote cap l a) : q = a ∨ q ∈ l := by
  rcases List.mem_cons.mp (List.mem_of_mem_take h) with h | h
  · exact Or.inl h
  · exact Or.inr (List.mem_of_mem_erase h)

/-- The use of an element that is in the list pushes none out. -/
theorem Bounded.promote_of_mem (h : Bounded cap l) (ha : a ∈ l) : promote cap l a = a :: l.erase a := by
  have hlength := h.length_le
  have hpos := List.length_pos_of_mem ha
  rw [Recency.promote, List.take_of_length_le]
  rw [List.length_cons, List.length_erase_of_mem ha]
  omega

theorem Bounded.promote (h : Bounded cap l) (a : α) : Bounded cap (promote cap l a) := by
  refine ⟨?_, List.length_take_le ..⟩
  exact (List.nodup_cons.mpr ⟨h.nodup.not_mem_erase, h.nodup.erase a⟩).sublist (List.take_sublist ..)

theorem Bounded.foldl (h : Bounded cap l) (as : List α) :
    Bounded cap (as.foldl (Recency.promote cap) l) := by
  induction as generalizing l with
  | nil => exact h
  | cons a as ih => exact ih (h.promote a)

/-- The element in use is in front. -/
theorem head?_promote (hcap : 0 < cap) (l : List α) (a : α) :
    (promote cap l a).head? = some a := by
  obtain ⟨n, rfl⟩ := Nat.exists_eq_succ_of_ne_zero hcap.ne'
  rfl

/-- The use of the first element. -/
theorem promote_head (h : (a :: l).length ≤ cap) : promote cap (a :: l) a = a :: l := by
  rw [promote, List.erase_cons_head, List.take_of_length_le h]

/-- An element with others in front of it, when another one is used. -/
theorem promote_append {before behind : List α} (h : Bounded cap (before ++ q :: behind))
    (hne : a ≠ q) :
    (∃ before' behind', promote cap (before ++ q :: behind) a = before' ++ q :: behind' ∧
        before'.toFinset = insert a before.toFinset) ∨
      q ∉ promote cap (before ++ q :: behind) a ∧ cap ≤ (insert a before.toFinset).card := by
  have hlength := h.length_le
  have hnodup := h.nodup
  rw [List.length_append, List.length_cons] at hlength
  by_cases ha : a ∈ before
  · left
    have hpos := List.length_pos_of_mem ha
    refine ⟨a :: before.erase a, behind, ?_, ?_⟩
    · rw [promote, List.erase_append_left _ ha, List.take_of_length_le, List.cons_append]
      rw [List.length_cons, List.length_append, List.length_erase_of_mem ha, List.length_cons]
      omega
    · ext x
      by_cases hx : x = a <;> simp [hx, List.mem_erase_of_ne]
  · have herase : (before ++ q :: behind).erase a = before ++ q :: behind.erase a := by
      rw [List.erase_append_right _ ha, List.erase_cons_tail (by simpa using hne.symm)]
    have hcard : (insert a before.toFinset).card = before.length + 1 := by
      rw [Finset.card_insert_of_notMem (by simpa using ha),
        List.toFinset_card_of_nodup hnodup.of_append_left]
    rw [promote, herase, ← List.cons_append, hcard]
    by_cases hroom : before.length + 1 < cap
    · left
      obtain ⟨n, hn⟩ : ∃ n, cap = (a :: before).length + (n + 1) :=
        ⟨cap - (before.length + 2), by rw [List.length_cons]; omega⟩
      refine ⟨a :: before, (behind.erase a).take n, ?_, by simp⟩
      rw [hn, List.take_length_add_append, List.take_succ_cons]
    · right
      refine ⟨?_, by omega⟩
      rw [List.take_append_of_le_length (by rw [List.length_cons]; omega)]
      intro hq
      rcases List.mem_cons.mp (List.mem_of_mem_take hq) with rfl | hq
      · exact hne rfl
      · exact (List.nodup_append.mp hnodup).2.2 q hq q List.mem_cons_self rfl

/-- An element stays just when, of the elements that stood in front of it and those that are used,
there are fewer than `cap`. -/
theorem mem_foldl_promote_iff {before behind : List α} (h : Bounded cap (before ++ q :: behind))
    (hq : q ∉ as) : q ∈ as.foldl (promote cap) (before ++ q :: behind) ↔
      (before.toFinset ∪ as.toFinset).card < cap := by
  have hsplit : (∃ before' behind', as.foldl (promote cap) (before ++ q :: behind) =
        before' ++ q :: behind' ∧ before'.toFinset = before.toFinset ∪ as.toFinset) ∨
      q ∉ as.foldl (promote cap) (before ++ q :: behind) ∧
        cap ≤ (before.toFinset ∪ as.toFinset).card := by
    induction as using List.reverseRecOn with
    | nil => exact Or.inl ⟨before, behind, rfl, by simp⟩
    | append_singleton as a ih =>
      simp only [List.mem_append, List.mem_singleton, not_or] at hq
      have hset : before.toFinset ∪ (as ++ [a]).toFinset =
          insert a (before.toFinset ∪ as.toFinset) := by
        ext x
        simp
      have hbounded := h.foldl as
      rw [List.foldl_append, List.foldl_cons, List.foldl_nil, hset]
      rcases ih hq.1 with ⟨before', behind', heq, hbefore⟩ | ⟨hmem, hcard⟩
      · rw [heq] at hbounded ⊢
        rw [← hbefore]
        exact promote_append hbounded (Ne.symm hq.2)
      · right
        refine ⟨fun hmem' => ?_, hcard.trans (Finset.card_le_card (Finset.subset_insert _ _))⟩
        rcases mem_of_mem_promote hmem' with heq | hmem'
        · exact hq.2 heq
        · exact hmem hmem'
  rcases hsplit with ⟨before', behind', heq, hbefore⟩ | ⟨hmem, hcard⟩
  · have hbounded := h.foldl as
    rw [heq] at hbounded ⊢
    have hlength := hbounded.length_le
    rw [List.length_append, List.length_cons] at hlength
    have hcard := List.toFinset_card_of_nodup hbounded.nodup.of_append_left
    rw [← hbefore, hcard]
    exact ⟨fun _ => by omega, fun _ => by simp⟩
  · exact ⟨fun h => absurd h hmem, fun h => absurd h (by omega)⟩

theorem mem_of_mem_foldl_promote (h : q ∈ as.foldl (promote cap) l) : q ∈ as ∨ q ∈ l := by
  induction as generalizing l with
  | nil => exact Or.inr h
  | cons a as ih =>
    rcases ih h with h | h
    · exact Or.inl (List.mem_cons_of_mem _ h)
    · rcases mem_of_mem_promote h with rfl | h
      · exact Or.inl List.mem_cons_self
      · exact Or.inr h

/-- As many uses of other elements as there are places drop an element. -/
theorem not_mem_foldl_promote (h : Bounded cap l) (hq : q ∉ as) (hcard : cap ≤ as.toFinset.card) :
    q ∉ as.foldl (promote cap) l := by
  intro hmem
  rcases mem_of_mem_foldl_promote hmem with hmem' | hmem'
  · exact hq hmem'
  · obtain ⟨before, behind, rfl⟩ := List.append_of_mem hmem'
    have hlt := (mem_foldl_promote_iff h hq).mp hmem
    have hle := Finset.card_le_card (Finset.subset_union_right : as.toFinset ⊆ before.toFinset ∪ _)
    omega

/-! ## The last use -/

/-- The number of uses up to the last use of an element, or zero. -/
def lastUse (uses : List α) (a : α) : ℕ := uses.length - uses.reverse.idxOf a

variable {uses : List α}

theorem lastUse_le (uses : List α) (a : α) : lastUse uses a ≤ uses.length := Nat.sub_le ..

@[simp] theorem lastUse_append_self (uses : List α) (a : α) :
    lastUse (uses ++ [a]) a = uses.length + 1 := by
  simp [lastUse]

theorem lastUse_append_of_ne (uses : List α) (h : a ≠ q) :
    lastUse (uses ++ [a]) q = lastUse uses q := by
  have hidx : (a :: uses.reverse).idxOf q = uses.reverse.idxOf q + 1 := List.idxOf_cons_ne _ h
  rw [lastUse, lastUse, List.reverse_append, List.reverse_singleton, List.singleton_append, hidx,
    List.length_append, List.length_singleton]
  omega

/-- The most recently used elements come first. -/
def Ordered (uses l : List α) : Prop := l.Pairwise fun a b => lastUse uses b < lastUse uses a

/-- The use of an element that is not in the list. -/
theorem Ordered.append_of_notMem (h : Ordered uses l) (ha : a ∉ l) : Ordered (uses ++ [a]) l := by
  refine List.Pairwise.imp_of_mem ?_ h
  intro b c hb hc hlt
  rwa [lastUse_append_of_ne _ (ne_of_mem_of_not_mem hc ha).symm,
    lastUse_append_of_ne _ (ne_of_mem_of_not_mem hb ha).symm]

/-- The use of an element that comes to the front. -/
theorem Ordered.promote (h : Ordered uses l) (hnodup : l.Nodup) (cap : ℕ) (a : α) :
    Ordered (uses ++ [a]) (promote cap l a) := by
  have hrest : Ordered uses (l.erase a) := List.Pairwise.sublist List.erase_sublist h
  have hcons : Ordered (uses ++ [a]) (a :: l.erase a) := by
    refine List.pairwise_cons.mpr ⟨?_, hrest.append_of_notMem hnodup.not_mem_erase⟩
    intro b hb
    have hne : a ≠ b := by
      rintro rfl
      exact hnodup.not_mem_erase hb
    rw [lastUse_append_self, lastUse_append_of_ne _ hne]
    exact Nat.lt_succ_of_le (lastUse_le ..)
  exact List.Pairwise.sublist (List.take_sublist ..) hcons

theorem Ordered.dropLast (h : Ordered uses l) : Ordered uses l.dropLast :=
  List.Pairwise.sublist (List.dropLast_sublist l) h

/-- The last element is the one whose last use is the oldest. -/
theorem Ordered.lastUse_lt (h : Ordered uses (l ++ [q])) (ha : a ∈ l) :
    lastUse uses q < lastUse uses a :=
  (List.pairwise_append.mp h).2.2 a ha q (List.mem_singleton_self q)

end Recency
