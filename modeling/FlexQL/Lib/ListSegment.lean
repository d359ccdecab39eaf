import Mathlib.Data.List.Nodup

/-!
# Linked list segments

A successor function links the elements of a list into a segment that ends at a given element.
Splicing a new element behind an old one changes the successor of the old element only.
-/

namespace ListSegment

variable {α : Type*}

/-- `next` leads from each element of the list to the one behind it, and from the last element
to `stop`. -/
def Seg (next : α → α) : List α → α → Prop
  | [], _ => True
  | a :: l, stop => next a = l.headD stop ∧ Seg next l stop

theorem seg_append {next : α → α} {l r : List α} {stop : α} :
    Seg next (l ++ r) stop ↔ Seg next l (r.headD stop) ∧ Seg next r stop := by
  induction l with
  | nil => simp [Seg]
  | cons a l ih =>
    have hhead : (l ++ r).headD stop = l.headD (r.headD stop) := by cases l <;> simp
    simp only [List.cons_append, Seg, ih, hhead, and_assoc]

theorem Seg.congr {next next' : α → α} {l : List α} {stop : α} (h : Seg next l stop)
    (heq : ∀ a ∈ l, next' a = next a) : Seg next' l stop := by
  induction l with
  | nil => trivial
  | cons a l ih =>
    refine ⟨?_, ih h.2 fun b hb => heq b (List.mem_cons_of_mem _ hb)⟩
    rw [heq a List.mem_cons_self]
    exact h.1

/-- Splicing `b` behind `a`: the successors of all other elements stay as they were. -/
theorem Seg.splice {next next' : α → α} {l r : List α} {a b stop : α}
    (h : Seg next (l ++ a :: r) stop) (hnodup : (l ++ a :: r).Nodup)
    (hother : ∀ c ∈ l ++ a :: r, c ≠ a → next' c = next c)
    (ha : next' a = b) (hb : next' b = next a) : Seg next' (l ++ a :: b :: r) stop := by
  obtain ⟨hl, hnext, hr⟩ := seg_append.mp h
  rw [List.nodup_middle, List.nodup_cons, List.mem_append, not_or] at hnodup
  refine seg_append.mpr ⟨hl.congr ?_, ha, ?_, hr.congr ?_⟩
  · intro c hc
    refine hother c (by simp [hc]) ?_
    rintro rfl
    exact hnodup.1.1 hc
  · rw [hb, hnext]
  · intro c hc
    refine hother c (by simp [hc]) ?_
    rintro rfl
    exact hnodup.1.2 hc

/-- A sublist that goes through an element can be cut there. -/
theorem sublist_middle {l r c : List α} {a : α} (h : (l ++ a :: r).Sublist c) :
    ∃ l' r', c = l' ++ a :: r' ∧ l.Sublist l' ∧ r.Sublist r' := by
  obtain ⟨c₁, c₂, rfl, hl, hr⟩ := List.append_sublist_iff.mp h
  obtain ⟨d₁, d₂, rfl, ha, hr'⟩ := List.cons_sublist_iff.mp hr
  obtain ⟨e, e', rfl⟩ := List.append_of_mem ha
  exact ⟨c₁ ++ e, e' ++ d₂, by simp, hl.trans (List.sublist_append_left _ _),
    hr'.trans (List.sublist_append_right _ _)⟩

/-- Follow the successors from an element on until `stop` is met; `none` when the given number of
elements did not suffice. -/
def walk [DecidableEq α] (next : α → α) (stop : α) : ℕ → α → Option (List α)
  | 0, a => if a = stop then some [] else none
  | fuel + 1, a => if a = stop then some [] else (walk next stop fuel (next a)).map (a :: ·)

/-- A walk along a segment visits exactly its elements, in order. -/
theorem Seg.walk_eq [DecidableEq α] {next : α → α} {l : List α} {stop : α} (h : Seg next l stop)
    (hstop : stop ∉ l) {fuel : ℕ} (hfuel : l.length ≤ fuel) :
    walk next stop fuel (l.headD stop) = some l := by
  induction l generalizing fuel with
  | nil => cases fuel <;> simp [walk]
  | cons a l ih =>
    obtain ⟨hne, hnot⟩ : stop ≠ a ∧ stop ∉ l := by simpa using hstop
    cases fuel with
    | zero => simp at hfuel
    | succ fuel =>
      have hlen : l.length ≤ fuel := by simpa using hfuel
      rw [List.headD_cons, walk, if_neg hne.symm, h.1, ih h.2 hnot hlen]
      rfl

end ListSegment
