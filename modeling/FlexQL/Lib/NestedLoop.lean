import Mathlib.Data.List.Sublists

/-!
# Nested loops

The pairs of elements of two lists that stand in a relation, in the order of the lists. A hash join
groups the positions of one list by their keys and computes the same pairs.
-/

namespace NestedLoop

variable {α β γ κ : Type*}

/-- Combine each element of the first list with each related element of the second. -/
def pairs (r : α → β → Prop) [∀ a b, Decidable (r a b)] (f : α → β → γ) (as : List α) (bs : List β) : List γ :=
  as.flatMap fun a => (bs.filter fun b => r a b).map (f a)

variable {r r' : α → β → Prop} [∀ a b, Decidable (r a b)] [∀ a b, Decidable (r' a b)] {f : α → β → γ}
  {as : List α} {bs : List β}

/-- Pairs of images are images of pairs. -/
theorem pairs_map {δ ε : Type*} (g : δ → α) (h : ε → β) (ds : List δ) (es : List ε) :
    pairs r f (ds.map g) (es.map h) =
      pairs (fun d e => r (g d) (h e)) (fun d e => f (g d) (h e)) ds es := by
  simp only [pairs, List.flatMap_map, List.filter_map, List.map_map]
  rfl

theorem mem_pairs {c : γ} : c ∈ pairs r f as bs ↔ ∃ a ∈ as, ∃ b ∈ bs, r a b ∧ f a b = c := by
  simp [pairs, and_assoc]

/-- Relations that agree on the lists have the same pairs. -/
theorem pairs_congr (h : ∀ a ∈ as, ∀ b ∈ bs, (r a b ↔ r' a b)) : pairs r f as bs = pairs r' f as bs := by
  refine List.flatMap_congr fun a ha => ?_
  rw [List.filter_congr fun b hb => decide_eq_decide.mpr (h a ha b hb)]

theorem pairs_cons (a : α) (as : List α) :
    pairs r f (a :: as) bs = (bs.filter fun b => r a b).map (f a) ++ pairs r f as bs := List.flatMap_cons ..

/-- What a stronger condition keeps of a list. -/
theorem filter_sublist_filter {p q : β → Prop} [DecidablePred p] [DecidablePred q] (h : ∀ b ∈ bs, p b → q b) :
    (bs.filter fun b => p b).Sublist (bs.filter fun b => q b) := by
  have heq : (bs.filter fun b => p b) = (bs.filter fun b => q b).filter fun b => p b := by
    rw [List.filter_filter]
    refine List.filter_congr fun b hb => ?_
    by_cases hp : p b
    · simp [hp, h b hb hp]
    · simp [hp]
  rw [heq]
  exact List.filter_sublist

/-- A smaller relation has at most as many pairs. -/
theorem pairs_length_le (h : ∀ a ∈ as, ∀ b ∈ bs, r a b → r' a b) :
    (pairs r f as bs).length ≤ (pairs r' f as bs).length := by
  induction as with
  | nil => exact le_rfl
  | cons a as ih =>
    have hfirst := (filter_sublist_filter fun b hb => h a List.mem_cons_self b hb).length_le
    have hrest := ih fun x hx => h x (List.mem_cons_of_mem _ hx)
    rw [pairs_cons, pairs_cons, List.length_append, List.length_append, List.length_map, List.length_map]
    exact Nat.add_le_add hfirst hrest

/-- A smaller relation with the same pairs is the same. -/
theorem related_of_pairs_eq (h : ∀ a ∈ as, ∀ b ∈ bs, r a b → r' a b)
    (heq : pairs r f as bs = pairs r' f as bs) : ∀ a ∈ as, ∀ b ∈ bs, r' a b → r a b := by
  induction as with
  | nil => simp
  | cons a as ih =>
    -- the first pieces and the rests are both at most as long, so both are as long
    have hsub := filter_sublist_filter fun b hb => h a List.mem_cons_self b hb
    have htail : ∀ x ∈ as, ∀ b ∈ bs, r x b → r' x b := fun x hx => h x (List.mem_cons_of_mem _ hx)
    have hfirst := hsub.length_le
    have hrest := pairs_length_le (f := f) htail
    rw [pairs_cons, pairs_cons] at heq
    have hlength := congrArg List.length heq
    rw [List.length_append, List.length_append, List.length_map, List.length_map] at hlength
    have hsame := hsub.eq_of_length (by omega)
    rw [hsame, List.append_cancel_left_eq] at heq
    intro x hx b hb hr
    rcases List.mem_cons.mp hx with rfl | hx
    · have hmem : b ∈ bs.filter fun b => r' x b := List.mem_filter.mpr ⟨hb, decide_eq_true hr⟩
      rw [← hsame] at hmem
      exact of_decide_eq_true (List.mem_filter.mp hmem).2
    · exact ih htail heq x hx b hb hr

/-- When a pair shows whether its elements are related, only the same relation has the same pairs. -/
theorem pairs_eq_iff (hshow : ∀ a ∈ as, ∀ b ∈ bs, ∀ a' ∈ as, ∀ b' ∈ bs, f a b = f a' b' → r' a' b' → r' a b) :
    pairs r f as bs = pairs r' f as bs ↔ ∀ a ∈ as, ∀ b ∈ bs, (r a b ↔ r' a b) := by
  refine ⟨fun heq => ?_, pairs_congr⟩
  have himp : ∀ a ∈ as, ∀ b ∈ bs, r a b → r' a b := by
    intro a ha b hb hr
    have hmem : f a b ∈ pairs r' f as bs := heq ▸ mem_pairs.mpr ⟨a, ha, b, hb, hr, rfl⟩
    obtain ⟨a', ha', b', hb', hr', hsame⟩ := mem_pairs.mp hmem
    exact hshow a ha b hb a' ha' b' hb' hsame.symm hr'
  exact fun a ha b hb => ⟨himp a ha b hb, related_of_pairs_eq himp heq a ha b hb⟩

/-- The positions of a key lead to the elements with this key. -/
theorem filterMap_bucket [DecidableEq κ] (es : List (κ × α)) (k : κ) :
    ((((es.map Prod.fst).zipIdx).filter fun q => q.1 = k).map Prod.snd).filterMap
      (fun i => (es.map Prod.snd)[i]?) = (es.filter fun e => e.1 = k).map Prod.snd := by
  have hkeys : (es.map Prod.fst).zipIdx = es.zipIdx.map fun q => (q.1.1, q.2) := by
    rw [List.zipIdx_map]
    rfl
  have hright : (es.filter fun e => e.1 = k).map Prod.snd =
      ((es.zipIdx.filter fun q => q.1.1 = k).filterMap fun q => some q.1.2) := by
    conv_lhs => rw [← List.zipIdx_map_fst 0 es, List.filter_map, List.map_map]
    rw [← List.filterMap_eq_map]
    rfl
  rw [hright, hkeys, List.filter_map, List.map_map, List.filterMap_map]
  refine List.filterMap_congr fun q hq => ?_
  have hmem := List.mem_zipIdx_iff_getElem?.mp (List.mem_of_mem_filter hq)
  simp only [Function.comp_apply, List.getElem?_map, hmem, Option.map_some]

end NestedLoop
