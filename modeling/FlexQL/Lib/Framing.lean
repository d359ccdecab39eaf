import Mathlib.Data.List.Basic

/-!
# Prefix codes

A sequence of words can be read back from its concatenation when no word is a proper prefix of
another. Words that end at the first marked letter are of this kind, and so are words made of such
words up to the first marked one.
-/

namespace Framing

variable {α : Type*} {P : List α → Prop}

/-- No word is empty, and none is a proper prefix of another. -/
structure Code (P : List α → Prop) : Prop where
  ne_nil : ∀ {a}, P a → a ≠ []
  eq_of_append : ∀ {a b x y}, P a → P b → a ++ x = b ++ y → a = b

theorem Code.append_inj (h : Code P) {a b x y : List α} (ha : P a) (hb : P b)
    (heq : a ++ x = b ++ y) : a = b ∧ x = y := by
  obtain rfl := h.eq_of_append ha hb heq
  exact ⟨rfl, List.append_cancel_left heq⟩

/-- Words that start a sequence of words are the first ones of it. -/
theorem Code.of_flatten (h : Code P) {as bs : List (List α)} {x : List α} (ha : ∀ a ∈ as, P a)
    (hb : ∀ b ∈ bs, P b) (heq : as.flatten ++ x = bs.flatten) :
    ∃ cs, bs = as ++ cs ∧ x = cs.flatten := by
  induction as generalizing bs with
  | nil => exact ⟨bs, rfl, heq⟩
  | cons a as ih =>
    rw [List.forall_mem_cons] at ha
    cases bs with
    | nil => simp [h.ne_nil ha.1] at heq
    | cons b bs =>
      rw [List.forall_mem_cons] at hb
      simp only [List.flatten_cons, List.append_assoc] at heq
      obtain ⟨rfl, hrest⟩ := h.append_inj ha.1 hb.1 heq
      obtain ⟨cs, rfl, hx⟩ := ih ha.2 hb.2 hrest
      exact ⟨cs, rfl, hx⟩

theorem Code.flatten_inj (h : Code P) {as bs : List (List α)} (ha : ∀ a ∈ as, P a)
    (hb : ∀ b ∈ bs, P b) (heq : as.flatten = bs.flatten) : as = bs := by
  obtain ⟨cs, rfl, hcs⟩ := h.of_flatten (x := []) ha hb (by rw [List.append_nil, heq])
  cases cs with
  | nil => rw [List.append_nil]
  | cons c cs =>
    have hne := h.ne_nil (hb c (by simp))
    rw [List.flatten_cons] at hcs
    exact absurd (List.append_eq_nil_iff.mp hcs.symm).1 hne

/-! ## Blocks -/

/-- The first marked letter is the last one. -/
inductive Block (mark : α → Bool) : List α → Prop
  | last {e : α} (h : mark e = true) : Block mark [e]
  | more {e : α} {b : List α} (h : mark e = false) (hb : Block mark b) : Block mark (e :: b)

variable {mark : α → Bool}

theorem Block.ne_nil {b : List α} (h : Block mark b) : b ≠ [] := by
  cases h <;> simp

theorem Block.of_append {body : List α} {e : α} (hbody : ∀ x ∈ body, mark x = false)
    (he : mark e = true) : Block mark (body ++ [e]) := by
  induction body with
  | nil => exact .last he
  | cons x body ih =>
    rw [List.forall_mem_cons] at hbody
    exact .more hbody.1 (ih hbody.2)

theorem Block.exists_mark {b : List α} (h : Block mark b) : ∃ e ∈ b, mark e = true := by
  induction h with
  | @last e he => exact ⟨e, by simp, he⟩
  | more _ _ ih =>
    obtain ⟨x, hx, hmark⟩ := ih
    exact ⟨x, List.mem_cons_of_mem _ hx, hmark⟩

theorem code_block (mark : α → Bool) : Code (Block mark) where
  ne_nil := Block.ne_nil
  eq_of_append := by
    intro a b x y ha hb heq
    induction ha generalizing b with
    | @last e he =>
      cases hb with
      | last _ => simpa using (List.cons.inj heq).1
      | more he' _ =>
        obtain rfl := (List.cons.inj heq).1
        simp [he] at he'
    | @more e a he _ ih =>
      cases hb with
      | last he' =>
        obtain rfl := (List.cons.inj heq).1
        simp [he'] at he
      | more _ hb =>
        obtain ⟨rfl, hrest⟩ := List.cons.inj heq
        rw [ih hb hrest]

/-! ## Words of words -/

/-- A sequence of words that ends with its first marked word. -/
def Message (P : List α → Prop) (mark : List α → Bool) (r : List α) : Prop :=
  ∃ ws : List (List α), (∀ w ∈ ws, P w) ∧ Block mark ws ∧ r = ws.flatten

variable {mark : List α → Bool}

/-- Words without a mark that start a message leave the rest of it. -/
theorem Code.of_unmarked (h : Code P) {ws vs : List (List α)} {x y : List α}
    (hws : ∀ w ∈ ws, P w ∧ mark w = false) (hvs : ∀ v ∈ vs, P v) (hblock : Block mark vs)
    (heq : ws.flatten ++ x = vs.flatten ++ y) :
    ∃ us, vs = ws ++ us ∧ Block mark us ∧ x = us.flatten ++ y := by
  induction ws generalizing vs with
  | nil => exact ⟨vs, rfl, hblock, heq⟩
  | cons w ws ih =>
    obtain ⟨v, vs, rfl⟩ := List.exists_cons_of_ne_nil hblock.ne_nil
    rw [List.forall_mem_cons] at hws hvs
    simp only [List.flatten_cons, List.append_assoc] at heq
    obtain ⟨rfl, hrest⟩ := h.append_inj hws.1.1 hvs.1 heq
    cases hblock with
    | last hmark => simp [hws.1.2] at hmark
    | more _ hblock' =>
      obtain ⟨us, rfl, hus, hx⟩ := ih hws.2 hvs.2 hblock' hrest
      exact ⟨us, rfl, hus, hx⟩

theorem flatten_ne_nil (h : Code P) {ws : List (List α)} (hws : ∀ w ∈ ws, P w) (hne : ws ≠ []) :
    ws.flatten ≠ [] := by
  obtain ⟨w, ws, rfl⟩ := List.exists_cons_of_ne_nil hne
  intro hnil
  rw [List.flatten_cons, List.append_eq_nil_iff] at hnil
  exact h.ne_nil (hws w List.mem_cons_self) hnil.1

theorem code_message (h : Code P) (mark : List α → Bool) : Code (Message P mark) where
  ne_nil := by
    rintro r ⟨ws, hws, hblock, rfl⟩
    exact flatten_ne_nil h hws hblock.ne_nil
  eq_of_append := by
    rintro a b x y ⟨ws, hws, hblock, rfl⟩ ⟨vs, hvs, hblock', rfl⟩ heq
    -- both start with the same words, up to the first marked one
    induction hblock generalizing vs with
    | @last w hmark =>
      obtain ⟨v, vs, rfl⟩ := List.exists_cons_of_ne_nil hblock'.ne_nil
      simp only [List.flatten_cons, List.append_assoc] at heq
      obtain ⟨rfl, -⟩ := h.append_inj (hws w (by simp)) (hvs v (by simp)) heq
      cases hblock' with
      | last _ => rfl
      | more hmark' _ => simp [hmark] at hmark'
    | @more w ws hmark _ ih =>
      obtain ⟨v, vs, rfl⟩ := List.exists_cons_of_ne_nil hblock'.ne_nil
      rw [List.forall_mem_cons] at hws hvs
      simp only [List.flatten_cons, List.append_assoc] at heq
      obtain ⟨rfl, hrest⟩ := h.append_inj hws.1 hvs.1 heq
      cases hblock' with
      | last hmark' => simp [hmark] at hmark'
      | more _ hblock' => rw [List.flatten_cons, List.flatten_cons, ih hws.2 vs hvs.2 hblock' hrest]

end Framing
