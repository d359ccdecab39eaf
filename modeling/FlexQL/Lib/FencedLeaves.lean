import Mathlib.Data.List.TakeWhile
import Mathlib.Data.List.Perm.Basic
import Mathlib.Order.Lattice

/-!
# Leaves between fences

The bottom level of a search tree is a sequence of sorted leaves, with a separator between any two
neighbours. Keys may repeat, so a leaf may hold copies of the separator on its right. A separator
is always the first key of the leaf behind it, and at most `h` keys of the leaf before it equal
it. Under this counting bound, a leaf of `2 * h + 1` entries that is cut into `h` and `h + 1`
entries yields a new separator strictly below the old one, so the new leaf has its place
immediately behind the old leaf. A key that is stored anywhere is also stored in the leaf to
which the separators lead.
-/

namespace FencedLeaves

variable {K V : Type*} [LinearOrder K] {h : ℕ}

/-- The entries of a leaf in the order of their keys; equal keys are allowed. -/
def SortedKeys (leaf : List (K × V)) : Prop := leaf.Pairwise fun p q => p.1 ≤ q.1

/-- The first key of a sequence of leaves. -/
def firstKey : List (List (K × V)) → Option K
  | [] => none
  | leaf :: _ => leaf.head?.map Prod.fst

/-- A sorted leaf to the left of the separator `s`: no key exceeds `s`, and at most `h` equal it. -/
structure Below (h : ℕ) (leaf : List (K × V)) (s : K) : Prop where
  sorted : SortedKeys leaf
  le : ∀ p ∈ leaf, p.1 ≤ s
  few : leaf.countP (fun p => p.1 = s) ≤ h

/-- Leaves with a separator between any two neighbours; a separator is the first key behind it. -/
def Fenced (h : ℕ) : List K → List (List (K × V)) → Prop
  | [], [leaf] => SortedKeys leaf
  | s :: seps, leaf :: leaves => Below h leaf s ∧ firstKey leaves = some s ∧ Fenced h seps leaves
  | _, _ => False

/-- The part of a fenced sequence to the left of a place; `next` is the first key behind it. -/
def FencedTo (h : ℕ) : List K → List (List (K × V)) → Option K → Prop
  | [], [], _ => True
  | s :: seps, leaf :: leaves, next =>
      Below h leaf s ∧ (leaves.head?.elim next fun l => l.head?.map Prod.fst) = some s ∧
        FencedTo h seps leaves next
  | _, _, _ => False

/-- The index of the leaf to which the separators lead: the number of separators up to the first
one above the key. -/
def route (seps : List K) (k : K) : ℕ := (seps.takeWhile (· ≤ k)).length

theorem Fenced.length_eq {seps : List K} {leaves : List (List (K × V))}
    (hf : Fenced h seps leaves) : leaves.length = seps.length + 1 := by
  induction seps generalizing leaves with
  | nil =>
    match leaves, hf with
    | [_], _ => rfl
  | cons s seps ih =>
    match leaves, hf with
    | leaf :: leaves, hf =>
      have := ih hf.2.2
      simp only [List.length_cons]
      omega

/-- A fenced sequence may be cut at any place. -/
theorem fenced_append {seps seps' : List K} {leaves leaves' : List (List (K × V))}
    (hlen : seps.length = leaves.length) :
    Fenced h (seps ++ seps') (leaves ++ leaves') ↔
      FencedTo h seps leaves (firstKey leaves') ∧ Fenced h seps' leaves' := by
  induction seps generalizing leaves with
  | nil =>
    obtain rfl : leaves = [] := List.length_eq_zero_iff.mp hlen.symm
    simp [FencedTo]
  | cons s seps ih =>
    match leaves, hlen with
    | leaf :: leaves, hlen =>
      have hfirst : firstKey (leaves ++ leaves') =
          leaves.head?.elim (firstKey leaves') fun l => l.head?.map Prod.fst := by
        cases leaves <;> rfl
      simp only [List.cons_append, Fenced, FencedTo, hfirst, ih (Nat.succ.inj hlen), and_assoc]

theorem SortedKeys.head_le {leaf : List (K × V)} {x : K} (hs : SortedKeys leaf)
    (hx : leaf.head?.map Prod.fst = some x) : ∀ p ∈ leaf, x ≤ p.1 := by
  cases leaf with
  | nil => simp at hx
  | cons q leaf =>
    obtain rfl : q.1 = x := by simpa using hx
    intro p hp
    rcases List.mem_cons.mp hp with rfl | hp
    · exact le_rfl
    · exact (List.pairwise_cons.mp hs).1 p hp

omit [LinearOrder K] in
theorem exists_mem_of_head (leaf : List (K × V)) {x : K}
    (hx : leaf.head?.map Prod.fst = some x) : ∃ p ∈ leaf, p.1 = x := by
  cases leaf with
  | nil => simp at hx
  | cons q leaf => exact ⟨q, List.mem_cons_self, by simpa using hx⟩

/-- The separators to the left of a place do not exceed the first key behind it. -/
theorem FencedTo.le_next {seps : List K} {leaves : List (List (K × V))} {x : K}
    (hf : FencedTo h seps leaves (some x)) : ∀ s ∈ seps, s ≤ x := by
  induction seps generalizing leaves with
  | nil => simp
  | cons s seps ih =>
    match leaves, hf with
    | [_], ⟨_, hnext, hrest⟩ =>
      obtain rfl : x = s := by simpa using hnext
      match seps, hrest with
      | [], _ => simp
    | _ :: leaf :: leaves, ⟨_, hnext, hrest⟩ =>
      match seps, hrest with
      | s' :: seps, hrest =>
        have hle := ih hrest
        obtain ⟨p, hp, hps⟩ := exists_mem_of_head leaf (by simpa using hnext)
        have hss' : s ≤ s' := hps ▸ hrest.1.le p hp
        intro r hr
        rcases List.mem_cons.mp hr with rfl | hr
        · exact hss'.trans (hle s' List.mem_cons_self)
        · exact hle r hr

/-- The first key is the least key of all leaves. -/
theorem Fenced.firstKey_le {seps : List K} {leaves : List (List (K × V))} {x : K}
    (hf : Fenced h seps leaves) (hx : firstKey leaves = some x) :
    ∀ leaf ∈ leaves, ∀ p ∈ leaf, x ≤ p.1 := by
  induction seps generalizing leaves x with
  | nil =>
    match leaves, hf with
    | [leaf], hf =>
      simp only [List.mem_singleton, forall_eq]
      exact SortedKeys.head_le hf hx
  | cons s seps ih =>
    match leaves, hf with
    | leaf :: leaves, ⟨hbelow, hnext, hrest⟩ =>
      intro l hl p hp
      rcases List.mem_cons.mp hl with rfl | hl
      · exact hbelow.sorted.head_le hx p hp
      · obtain ⟨q, hq, hqx⟩ := exists_mem_of_head leaf hx
        calc x = q.1 := hqx.symm
          _ ≤ s := hbelow.le q hq
          _ ≤ p.1 := ih hrest hnext l hl p hp

/-- The separators of a fenced sequence never decrease. -/
theorem Fenced.seps_sorted {seps : List K} {leaves : List (List (K × V))}
    (hf : Fenced h seps leaves) : seps.Pairwise (· ≤ ·) := by
  induction seps generalizing leaves with
  | nil => simp
  | cons s seps ih =>
    match leaves, hf with
    | leaf :: leaves, ⟨_, hnext, hrest⟩ =>
      have hsorted := ih hrest
      refine List.pairwise_cons.mpr ⟨?_, hsorted⟩
      match seps, leaves, hrest with
      | [], _, _ => simp
      | s' :: seps, leaf' :: leaves, hrest =>
        obtain ⟨p, hp, hps⟩ := exists_mem_of_head leaf' hnext
        have hss' : s ≤ s' := hps ▸ hrest.1.le p hp
        intro r hr
        rcases List.mem_cons.mp hr with rfl | hr
        · exact hss'
        · exact hss'.trans ((List.pairwise_cons.mp hsorted).1 r hr)

/-- What a separator says about the leaf on its left. -/
theorem Fenced.below {seps : List K} {leaves : List (List (K × V))} (hf : Fenced h seps leaves)
    {i : ℕ} {leaf : List (K × V)} {s : K} (hleaf : leaves[i]? = some leaf)
    (hs : seps[i]? = some s) : Below h leaf s := by
  induction seps generalizing leaves i with
  | nil => simp at hs
  | cons s' seps ih =>
    match leaves, hf with
    | leaf' :: leaves, ⟨hbelow, _, hrest⟩ =>
      cases i with
      | zero =>
        simp only [List.getElem?_cons_zero, Option.some.injEq] at hleaf hs
        rwa [← hleaf, ← hs]
      | succ i => exact ih hrest (by simpa using hleaf) (by simpa using hs)

/-- What a separator says about the leaf on its right. -/
theorem Fenced.above {seps : List K} {leaves : List (List (K × V))} (hf : Fenced h seps leaves)
    {i : ℕ} {leaf : List (K × V)} {s : K} (hleaf : leaves[i + 1]? = some leaf)
    (hs : seps[i]? = some s) : ∀ p ∈ leaf, s ≤ p.1 := by
  induction seps generalizing leaves i with
  | nil => simp at hs
  | cons s' seps ih =>
    match leaves, hf with
    | leaf' :: leaves, ⟨_, hnext, hrest⟩ =>
      rw [List.getElem?_cons_succ] at hleaf
      cases i with
      | zero =>
        obtain rfl : s' = s := by simpa using hs
        exact hrest.firstKey_le hnext leaf (List.mem_of_getElem? hleaf)
      | succ i => exact ih hrest hleaf (by simpa using hs)

/-- A separator is a stored key. -/
theorem Fenced.exists_mem_of_sep {seps : List K} {leaves : List (List (K × V))}
    (hf : Fenced h seps leaves) {s : K} (hs : s ∈ seps) : ∃ leaf ∈ leaves, ∃ p ∈ leaf, p.1 = s := by
  induction seps generalizing leaves with
  | nil => simp at hs
  | cons s' seps ih =>
    match leaves, hf with
    | _ :: leaf :: leaves, ⟨_, hnext, hrest⟩ =>
      rcases List.mem_cons.mp hs with rfl | hs
      · obtain ⟨p, hp, hps⟩ := exists_mem_of_head leaf hnext
        exact ⟨leaf, by simp, p, hp, hps⟩
      · obtain ⟨leaf', hleaf', hmem⟩ := ih hrest hs
        exact ⟨leaf', List.mem_cons_of_mem _ hleaf', hmem⟩

/-- The keys never decrease from one leaf to the next. -/
theorem Fenced.sorted_flatten {seps : List K} {leaves : List (List (K × V))}
    (hf : Fenced h seps leaves) : SortedKeys leaves.flatten := by
  induction seps generalizing leaves with
  | nil =>
    match leaves, hf with
    | [leaf], hf => simpa using (show SortedKeys leaf from hf)
  | cons s seps ih =>
    match leaves, hf with
    | leaf :: leaves, ⟨hbelow, hnext, hrest⟩ =>
      rw [List.flatten_cons]
      refine List.pairwise_append.mpr ⟨hbelow.sorted, ih hrest, fun p hp q hq => ?_⟩
      obtain ⟨leaf', hleaf', hq⟩ := List.mem_flatten.mp hq
      exact (hbelow.le p hp).trans (hrest.firstKey_le hnext leaf' hleaf' q hq)

/-- A stored key is also stored in the leaf to which the separators lead. -/
theorem Fenced.exists_mem_routed {seps : List K} {leaves : List (List (K × V))}
    (hf : Fenced h seps leaves) {leaf : List (K × V)} {p : K × V} (hleaf : leaf ∈ leaves)
    (hp : p ∈ leaf) : ∃ routed, leaves[route seps p.1]? = some routed ∧ ∃ q ∈ routed, q.1 = p.1 := by
  induction seps generalizing leaves leaf p with
  | nil =>
    match leaves, hf with
    | [l], _ =>
      obtain rfl : leaf = l := by simpa using hleaf
      exact ⟨leaf, by simp [route], p, hp, rfl⟩
  | cons s seps ih =>
    match leaves, hf with
    | l :: leaves, ⟨hbelow, hnext, hrest⟩ =>
      by_cases hs : s ≤ p.1
      · have hroute : route (s :: seps) p.1 = route seps p.1 + 1 := by simp [route, hs]
        rw [hroute, List.getElem?_cons_succ]
        rcases List.mem_cons.mp hleaf with rfl | hleaf
        · -- the key equals the separator, which is the first key of the next leaf
          have heq : p.1 = s := le_antisymm (hbelow.le p hp) hs
          match leaves, hnext with
          | l' :: leaves, hnext =>
            obtain ⟨q, hq, hqs⟩ := exists_mem_of_head l' hnext
            have := ih hrest List.mem_cons_self hq
            rwa [hqs, ← heq] at this
        · exact ih hrest hleaf hp
      · have hroute : route (s :: seps) p.1 = 0 := by simp [route, hs]
        rw [hroute, List.getElem?_cons_zero]
        rcases List.mem_cons.mp hleaf with rfl | hleaf
        · exact ⟨leaf, rfl, p, hp, rfl⟩
        · exact absurd (hrest.firstKey_le hnext leaf hleaf p hp) hs

/-! ## Changing one leaf -/

/-- Replacing what stands behind a place is sound when the first key stays the same. -/
theorem Fenced.replace {seps seps₁ seps₂ : List K} {leaves leaves₁ leaves₂ : List (List (K × V))}
    (hf : Fenced h (seps ++ seps₁) (leaves ++ leaves₁)) (hlen : seps.length = leaves.length)
    (hnew : Fenced h seps₂ leaves₂) (hfirst : leaves ≠ [] → firstKey leaves₂ = firstKey leaves₁) :
    Fenced h (seps ++ seps₂) (leaves ++ leaves₂) := by
  obtain ⟨hto, -⟩ := (fenced_append hlen).mp hf
  refine (fenced_append hlen).mpr ⟨?_, hnew⟩
  cases leaves with
  | nil =>
    obtain rfl : seps = [] := List.length_eq_zero_iff.mp hlen
    trivial
  | cons leaf leaves => rwa [hfirst (by simp)]

variable {seps seps' : List K} {leaves leaves' : List (List (K × V))}
  {leaf entries : List (K × V)} {k : K} {v : V}

/-- The first key behind a place is not changed by an entry whose key is at or above the
separators before that place. -/
theorem head_of_insert (hsorted : SortedKeys leaf) (hentries : SortedKeys entries)
    (hperm : entries.Perm ((k, v) :: leaf)) {x : K} (hx : leaf.head?.map Prod.fst = some x)
    (hk : x ≤ k) : entries.head?.map Prod.fst = some x := by
  cases entries with
  | nil => simpa using hperm.length_eq
  | cons q entries =>
    have hq : q = (k, v) ∨ q ∈ leaf := by
      simpa using hperm.subset (List.mem_cons_self (a := q) (l := entries))
    obtain ⟨p, hp, hpx⟩ := exists_mem_of_head _ hx
    have hpe : p ∈ q :: entries := hperm.symm.subset (List.mem_cons_of_mem _ hp)
    have hqp : q.1 ≤ x := hpx ▸ hentries.head_le rfl p hpe
    have hxq : x ≤ q.1 := by
      rcases hq with rfl | hq
      · exact hk
      · exact hsorted.head_le hx q hq
    simp [le_antisymm hqp hxq]

/-- The leaf behind a place, its neighbours to the right, and what the place demands of its first
key. -/
theorem Fenced.at_place (hf : Fenced h (seps ++ seps') (leaves ++ leaf :: leaves'))
    (hlen : seps.length = leaves.length) (hseps : ∀ s ∈ seps, s ≤ k) :
    Fenced h seps' (leaf :: leaves') ∧
      (leaves ≠ [] → ∃ x, leaf.head?.map Prod.fst = some x ∧ x ≤ k) := by
  obtain ⟨hto, hbehind⟩ := (fenced_append hlen).mp hf
  refine ⟨hbehind, fun hne => ?_⟩
  -- the last separator before the place is the first key behind it
  obtain ⟨leaves₀, l, rfl⟩ := List.eq_nil_or_concat leaves |>.resolve_left hne
  obtain ⟨seps₀, s, rfl⟩ : ∃ a b, seps = a ++ [b] := by
    rcases List.eq_nil_or_concat seps with rfl | ⟨a, b, rfl⟩
    · simp at hlen
    · exact ⟨a, b, by simp⟩
  have hlen₀ : seps₀.length = leaves₀.length := by simpa using hlen
  rw [List.concat_eq_append, List.append_assoc, List.append_assoc, fenced_append hlen₀] at hf
  exact ⟨s, hf.2.2.1, hseps s (by simp)⟩

theorem Fenced.sorted_of_place (hf : Fenced h seps' (leaf :: leaves')) : SortedKeys leaf := by
  cases seps' with
  | nil =>
    match leaves', hf with
    | [], hf => exact hf
  | cons s seps' => exact hf.1.sorted

/-- Entries below a separator remain below it when a smaller key is added. -/
theorem Below.of_perm {s : K} (hb : Below h leaf s) (hentries : SortedKeys entries)
    (hperm : entries.Perm ((k, v) :: leaf)) (hk : k < s) : Below h entries s := by
  refine ⟨hentries, ?_, ?_⟩
  · intro p hp
    rcases List.mem_cons.mp (hperm.subset hp) with rfl | hp
    · exact hk.le
    · exact hb.le p hp
  · rw [hperm.countP_eq, List.countP_cons_of_neg (by simpa using hk.ne)]
    exact hb.few

theorem Below.sublist {s : K} (hb : Below h leaf s) {part : List (K × V)}
    (hpart : part.Sublist leaf) : Below h part s :=
  ⟨hb.sorted.sublist hpart, fun p hp => hb.le p (hpart.subset hp),
    (hpart.countP_le).trans hb.few⟩

/-- Adding an entry to the leaf to which the separators lead. -/
theorem Fenced.insert (hf : Fenced h (seps ++ seps') (leaves ++ leaf :: leaves'))
    (hlen : seps.length = leaves.length) (hseps : ∀ s ∈ seps, s ≤ k)
    (hseps' : ∀ s ∈ seps'.head?, k < s) (hentries : SortedKeys entries)
    (hperm : entries.Perm ((k, v) :: leaf)) :
    Fenced h (seps ++ seps') (leaves ++ entries :: leaves') := by
  obtain ⟨hbehind, hhead⟩ := hf.at_place hlen hseps
  refine hf.replace hlen ?_ ?_
  · cases seps' with
    | nil =>
      match leaves', hbehind with
      | [], _ => exact hentries
    | cons s seps' =>
      obtain ⟨hbelow, hnext, hrest⟩ := hbehind
      exact ⟨hbelow.of_perm hentries hperm (hseps' s rfl), hnext, hrest⟩
  · intro hne
    obtain ⟨x, hx, hxk⟩ := hhead hne
    exact (head_of_insert hbehind.sorted_of_place hentries hperm hx hxk).trans hx.symm

/-- Keeping only the first part of a leaf that would overflow. -/
theorem Fenced.keep_left (hf : Fenced h (seps ++ seps') (leaves ++ leaf :: leaves'))
    (hlen : seps.length = leaves.length) (hseps : ∀ s ∈ seps, s ≤ k)
    (hseps' : ∀ s ∈ seps'.head?, k < s) (hentries : SortedKeys entries)
    (hperm : entries.Perm ((k, v) :: leaf)) {n : ℕ} (hn : 0 < n) :
    Fenced h (seps ++ seps') (leaves ++ entries.take n :: leaves') := by
  have hins := hf.insert hlen hseps hseps' hentries hperm
  obtain ⟨hbehind, -⟩ := hins.at_place hlen hseps
  refine hins.replace hlen ?_ ?_
  · cases seps' with
    | nil =>
      match leaves', hbehind with
      | [], hbehind => exact List.Pairwise.sublist (List.take_sublist _ _) hbehind
    | cons s seps' =>
      exact ⟨hbehind.1.sublist (List.take_sublist _ _), hbehind.2.1, hbehind.2.2⟩
  · intro _
    simp [firstKey, List.head?_take, hn.ne']

/-- Cutting a leaf of `2 * h + 1` entries into `h` and `h + 1`. The new separator `x` fits between
the separators of the old leaf, strictly below the one on the right. -/
theorem Fenced.split (hf : Fenced h (seps ++ seps') (leaves ++ leaf :: leaves'))
    (hlen : seps.length = leaves.length) (hseps : ∀ s ∈ seps, s ≤ k)
    (hseps' : ∀ s ∈ seps'.head?, k < s) (hentries : SortedKeys entries)
    (hperm : entries.Perm ((k, v) :: leaf)) (hh : 0 < h) (hsize : entries.length = 2 * h + 1)
    {x : K} (hx : (entries.drop h).head?.map Prod.fst = some x) :
    Fenced h (seps ++ x :: seps') (leaves ++ entries.take h :: entries.drop h :: leaves') ∧
      (∀ s ∈ seps, s ≤ x) ∧ ∀ s ∈ seps'.head?, x < s := by
  have hins := hf.insert hlen hseps hseps' hentries hperm
  obtain ⟨hbehind, hhead⟩ := hins.at_place hlen hseps
  have hright : SortedKeys (entries.drop h) :=
    List.Pairwise.sublist (List.drop_sublist _ _) hentries
  have hle : ∀ p ∈ entries.take h, p.1 ≤ x := by
    obtain ⟨q, hq, rfl⟩ := exists_mem_of_head _ hx
    intro p hp
    rw [← List.take_append_drop h entries] at hentries
    exact (List.pairwise_append.mp hentries).2.2 p hp q hq
  have hleft : Below h (entries.take h) x :=
    ⟨List.Pairwise.sublist (List.take_sublist _ _) hentries, hle,
      List.countP_le_length.trans (List.length_take_le _ _)⟩
  -- if the new separator were the old one, all `h + 1` right entries would equal it
  have hxs : ∀ s ∈ seps'.head?, x < s := by
    intro s hs
    match seps', hs with
    | s :: seps', rfl =>
      have hb := hbehind.1.sublist (List.drop_sublist h entries)
      obtain ⟨q, hq, hqx⟩ := exists_mem_of_head _ hx
      have hxle : x ≤ s := hqx ▸ hb.le q hq
      refine lt_of_le_of_ne hxle fun heq => ?_
      have hall : (entries.drop h).countP (fun p => p.1 = s) = (entries.drop h).length := by
        apply List.countP_eq_length.mpr
        intro p hp
        simpa using le_antisymm (hb.le p hp) (heq ▸ hright.head_le hx p hp)
      have hfew := hb.few
      rw [hall, List.length_drop, hsize] at hfew
      omega
  refine ⟨hins.replace hlen ⟨hleft, hx, ?_⟩ ?_, ?_, hxs⟩
  · cases seps' with
    | nil =>
      match leaves', hbehind with
      | [], _ => exact hright
    | cons s seps' =>
      exact ⟨hbehind.1.sublist (List.drop_sublist _ _), hbehind.2.1, hbehind.2.2⟩
  · intro _
    simp [firstKey, List.head?_take, hh.ne']
  · intro s hs
    obtain ⟨hto, -⟩ := (fenced_append hlen).mp hins
    have hne : leaves ≠ [] := by
      rintro rfl
      simp only [List.length_nil, List.length_eq_zero_iff] at hlen
      simp [hlen] at hs
    obtain ⟨y, hy, -⟩ := hhead hne
    rw [firstKey, hy] at hto
    obtain ⟨q, hq, hqx⟩ := exists_mem_of_head _ hx
    calc s ≤ y := hto.le_next s hs
      _ ≤ q.1 := hentries.head_le hy q (List.mem_of_mem_drop hq)
      _ = x := hqx

end FencedLeaves
