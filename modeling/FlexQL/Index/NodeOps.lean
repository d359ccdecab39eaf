import FlexQL.Index.BPTree
import FlexQL.Lib.FencedLeaves

/-!
# What the loops over one node compute

The loops of the tree run over the arrays of a node. Here each of them is given its meaning on the
lists that the used part of the arrays denotes: the entries of a leaf, and the separators and the
children of an internal node. No index leaves its array as long as the node is not over-full.
-/

namespace FlexQL.BPTNode

open FencedLeaves

/-- The entries of a leaf. -/
def pairs (n : BPTNode) : List (ℕ × ℕ) := (List.range n.numKeys).map fun i => (n.keys i, n.values i)

/-- The separators of an internal node. -/
def seps (n : BPTNode) : List ℕ := (List.range n.numKeys).map n.keys

/-- The children of an internal node. -/
def kids (n : BPTNode) : List ℕ := (List.range (n.numKeys + 1)).map n.children

@[simp] theorem pairs_length (n : BPTNode) : n.pairs.length = n.numKeys := by simp [pairs]

@[simp] theorem seps_length (n : BPTNode) : n.seps.length = n.numKeys := by simp [seps]

@[simp] theorem kids_length (n : BPTNode) : n.kids.length = n.numKeys + 1 := by simp [kids]

theorem pairs_getElem? {n : BPTNode} {i : ℕ} (h : i < n.numKeys) :
    n.pairs[i]? = some (n.keys i, n.values i) := by
  simp [pairs, List.getElem?_range h]

theorem seps_getElem? {n : BPTNode} {i : ℕ} (h : i < n.numKeys) :
    n.seps[i]? = some (n.keys i) := by
  simp [seps, List.getElem?_range h]

theorem kids_getElem? {n : BPTNode} {i : ℕ} (h : i < n.numKeys + 1) :
    n.kids[i]? = some (n.children i) := by
  simp [kids, List.getElem?_range h]

theorem key_of_lt {n : BPTNode} {i : ℕ} (h : i < bptOrder) : n.key i = .ok (n.keys i) := if_pos h

theorem value_of_lt {n : BPTNode} {i : ℕ} (h : i < bptOrder) : n.value i = .ok (n.values i) :=
  if_pos h

theorem child_of_lt {n : BPTNode} {i : ℕ} (h : i < bptOrder + 1) :
    n.child i = .ok (n.children i) := if_pos h

/-- The descent picks the child to which the separators lead. -/
theorem childSlot_eq {n : BPTNode} (key : ℕ) (h : n.numKeys ≤ bptOrder) :
    n.childSlot key n.numKeys 0 = .ok (route n.seps key) := by
  have hloop : ∀ fuel i, i + fuel ≤ bptOrder → n.childSlot key fuel i =
      .ok (i + (((List.range' i fuel).map n.keys).takeWhile (· ≤ key)).length) := by
    intro fuel
    induction fuel with
    | zero => intro i _; rfl
    | succ fuel ih =>
      intro i hi
      simp only [childSlot, key_of_lt (show i < bptOrder by omega), List.range'_succ,
        List.map_cons, List.takeWhile_cons, Bind.bind, Except.bind, Pure.pure, Except.pure]
      by_cases hle : n.keys i ≤ key
      · rw [if_pos hle, ih (i + 1) (by omega)]
        simp only [hle, decide_true, if_true, List.length_cons]
        congr 1
        omega
      · rw [if_neg hle]
        simp [hle]
  rw [hloop n.numKeys 0 (by omega), ← List.range_eq_range', Nat.zero_add]
  rfl

/-- The child slot that the descent picks is in range. -/
theorem child_route {n : BPTNode} (key : ℕ) (h : n.numKeys ≤ bptOrder) :
    n.child (route n.seps key) = .ok (n.children (route n.seps key)) := by
  have hroute : route n.seps key ≤ n.numKeys := by
    simpa [route] using (List.takeWhile_sublist (· ≤ key) (l := n.seps)).length_le
  exact child_of_lt (by omega)

/-- The search in a leaf returns the value of the first entry with the key. -/
theorem lookup_eq {n : BPTNode} (key : ℕ) (h : n.numKeys ≤ bptOrder) :
    n.lookup key n.numKeys 0 = .ok ((n.pairs.find? (fun p => p.1 = key)).map Prod.snd) := by
  have hloop : ∀ fuel i, i + fuel ≤ bptOrder → n.lookup key fuel i =
      .ok ((((List.range' i fuel).map fun i => (n.keys i, n.values i)).find?
        (fun p => p.1 = key)).map Prod.snd) := by
    intro fuel
    induction fuel with
    | zero => intro i _; rfl
    | succ fuel ih =>
      intro i hi
      have hlt : i < bptOrder := by omega
      simp only [lookup, key_of_lt hlt, value_of_lt hlt, List.range'_succ, List.map_cons,
        List.find?_cons, Bind.bind, Except.bind, Pure.pure, Except.pure]
      by_cases heq : n.keys i = key
      · simp [heq]
      · simp [heq, ih (i + 1) (by omega)]
  rw [hloop n.numKeys 0 (by omega), ← List.range_eq_range']
  rfl

/-- The scan of the children finds exactly the children. -/
theorem hasChild_eq {n : BPTNode} (pid : ℕ) (h : n.numKeys ≤ bptOrder) :
    n.hasChild pid (n.numKeys + 1) 0 = .ok (decide (pid ∈ n.kids)) := by
  have hloop : ∀ fuel i, i + fuel ≤ bptOrder + 1 → n.hasChild pid fuel i =
      .ok (decide (pid ∈ (List.range' i fuel).map n.children)) := by
    intro fuel
    induction fuel with
    | zero => intro i _; simp [hasChild]
    | succ fuel ih =>
      intro i hi
      simp only [hasChild, child_of_lt (show i < bptOrder + 1 by omega), List.range'_succ,
        List.map_cons, List.mem_cons, Bind.bind, Except.bind, Pure.pure, Except.pure]
      by_cases heq : n.children i = pid
      · simp [heq]
      · simp [heq, Ne.symm heq, ih (i + 1) (by omega)]
  rw [hloop (n.numKeys + 1) 0 (by omega), ← List.range_eq_range']
  rfl

/-- The function that the shifting loops leave in an array: the entries between the free slot `j`
and `i` have moved one to the right. -/
def shifted {α : Type} (f : ℕ → α) (j i m : ℕ) : α := if j < m ∧ m ≤ i then f (m - 1) else f m

theorem shifted_update {f : ℕ → ℕ} {j i : ℕ} (hj : j ≤ i) (m : ℕ) :
    shifted (Function.update f (i + 1) (f i)) j i m = shifted f j (i + 1) m := by
  unfold shifted
  by_cases hm : m = i + 1
  · subst hm
    rw [if_neg (by omega), if_pos (by omega)]
    simp
  · by_cases hin : j < m ∧ m ≤ i
    · rw [if_pos hin, if_pos (by omega), Function.update_of_ne (by omega)]
    · rw [if_neg hin, if_neg (by omega), Function.update_of_ne hm]

/-- What one run of the shifting loop over the keys establishes about its free slot. -/
structure FreeSlot (f : ℕ → ℕ) (key i j : ℕ) : Prop where
  le : j ≤ i
  above : ∀ m, j ≤ m → m < i → key < f m
  below : 0 < j → f (j - 1) ≤ key

theorem FreeSlot.step {f : ℕ → ℕ} {key i j : ℕ}
    (h : FreeSlot (Function.update f (i + 1) (f i)) key i j) (hkey : key < f i) :
    FreeSlot f key (i + 1) j := by
  refine ⟨by have := h.le; omega, ?_, ?_⟩
  · intro m hm hmi
    by_cases hlast : m = i
    · exact hlast ▸ hkey
    · simpa [Function.update_of_ne (show m ≠ i + 1 by omega)] using h.above m hm (by omega)
  · intro hpos
    have hne : j - 1 ≠ i + 1 := by have := h.le; omega
    simpa [Function.update_of_ne hne] using h.below hpos

theorem shiftValues_spec {i : ℕ} (n : BPTNode) (key : ℕ) (hi : i < bptOrder) :
    ∃ j, FreeSlot n.keys key i j ∧ n.shiftValues key i = .ok ({ n with
      keys := shifted n.keys j i, values := shifted n.values j i }, j) := by
  induction i generalizing n with
  | zero =>
    refine ⟨0, ⟨le_rfl, by omega, by omega⟩, ?_⟩
    have hid : ∀ f : ℕ → ℕ, shifted f 0 0 = f := fun f => funext fun m => if_neg (by omega)
    simp [shiftValues, hid]
  | succ i ih =>
    have hlt : i < bptOrder := by omega
    simp only [shiftValues, key_of_lt hlt, setKey, setValue, value, if_pos hi, if_pos hlt,
      Bind.bind, Except.bind, Pure.pure, Except.pure]
    by_cases hkey : key < n.keys i
    · rw [if_pos hkey]
      obtain ⟨j, hfree, hrun⟩ := ih { n with
        keys := Function.update n.keys (i + 1) (n.keys i)
        values := Function.update n.values (i + 1) (n.values i) } hlt
      refine ⟨j, hfree.step hkey, hrun.trans ?_⟩
      congr 3 <;> exact funext (shifted_update hfree.le)
    · rw [if_neg hkey]
      refine ⟨i + 1, ⟨le_rfl, by omega, by simpa using hkey⟩, ?_⟩
      have hid : ∀ f : ℕ → ℕ, shifted f (i + 1) (i + 1) = f :=
        fun f => funext fun m => if_neg (by omega)
      simp [hid]

theorem shiftChildren_spec {i : ℕ} (n : BPTNode) (key : ℕ) (hi : i < bptOrder) :
    ∃ j, FreeSlot n.keys key i j ∧ n.shiftChildren key i = .ok ({ n with
      keys := shifted n.keys j i, children := shifted n.children (j + 1) (i + 1) }, j) := by
  induction i generalizing n with
  | zero =>
    refine ⟨0, ⟨le_rfl, by omega, by omega⟩, ?_⟩
    have hid : ∀ (f : ℕ → ℕ) (k : ℕ), shifted f k k = f :=
      fun f k => funext fun m => if_neg (by omega)
    simp [shiftChildren, hid]
  | succ i ih =>
    have hlt : i < bptOrder := by omega
    simp only [shiftChildren, key_of_lt hlt, setKey, setChild, child, if_pos hi,
      if_pos (show i + 2 < bptOrder + 1 by omega), if_pos (show i + 1 < bptOrder + 1 by omega),
      Bind.bind, Except.bind, Pure.pure, Except.pure]
    by_cases hkey : key < n.keys i
    · rw [if_pos hkey]
      obtain ⟨j, hfree, hrun⟩ := ih { n with
        keys := Function.update n.keys (i + 1) (n.keys i)
        children := Function.update n.children (i + 2) (n.children (i + 1)) } hlt
      refine ⟨j, hfree.step hkey, hrun.trans ?_⟩
      congr 3
      · exact funext (shifted_update hfree.le)
      · exact funext (shifted_update (by have := hfree.le; omega))
    · rw [if_neg hkey]
      refine ⟨i + 1, ⟨le_rfl, by omega, by simpa using hkey⟩, ?_⟩
      have hid : ∀ (f : ℕ → ℕ) (k : ℕ), shifted f k k = f :=
        fun f k => funext fun m => if_neg (by omega)
      simp [hid]

/-- Writing the free slot of a shifted array is an insertion into the list of its used part. -/
theorem map_update_shifted {α : Type} (f : ℕ → α) {j i : ℕ} (hj : j ≤ i) (x : α) :
    (List.range (i + 1)).map (Function.update (shifted f j i) j x) =
      ((List.range i).map f).take j ++ x :: ((List.range i).map f).drop j := by
  apply List.ext_getElem?
  intro m
  have hlen : (((List.range i).map f).take j).length = j := by simp [hj]
  rcases lt_trichotomy m j with hlt | rfl | hgt
  · rw [List.getElem?_append_left (by omega), List.getElem?_take_of_lt hlt, List.getElem?_map,
      List.getElem?_map, List.getElem?_range (by omega), List.getElem?_range (by omega)]
    simp [Function.update_of_ne (show m ≠ j by omega), shifted, show ¬ j < m by omega]
  · rw [List.getElem?_append_right (by omega), hlen, List.getElem?_map,
      List.getElem?_range (by omega)]
    simp
  · obtain ⟨d, rfl⟩ := Nat.exists_eq_add_of_lt hgt
    rw [List.getElem?_append_right (by omega), hlen, show j + d + 1 - j = d + 1 by omega,
      List.getElem?_cons_succ, List.getElem?_drop, List.getElem?_map, List.getElem?_map]
    by_cases hm : j + d < i
    · rw [List.getElem?_range (by omega), List.getElem?_range hm]
      simp [Function.update_of_ne (show j + d + 1 ≠ j by omega), shifted,
        show j < j + d + 1 by omega, show j + d + 1 ≤ i by omega]
    · rw [List.getElem?_eq_none (by simp; omega), List.getElem?_eq_none (by simp; omega)]
      rfl

/-- The insertion of a pair into a leaf that is not full. -/
theorem insertPair_spec {n : BPTNode} (key val : ℕ) (h : n.numKeys < bptOrder) :
    ∃ n' j, n.insertPair key val = .ok n' ∧ FreeSlot n.keys key n.numKeys j ∧
      n'.pairs = n.pairs.take j ++ (key, val) :: n.pairs.drop j ∧
      n'.type = n.type ∧ n'.nextLeaf = n.nextLeaf ∧ n'.numKeys = n.numKeys + 1 := by
  obtain ⟨j, hfree, hrun⟩ := n.shiftValues_spec key h
  have hj : j < bptOrder := by have := hfree.le; omega
  let n' : BPTNode := { n with
    numKeys := n.numKeys + 1
    keys := Function.update (shifted n.keys j n.numKeys) j key
    values := Function.update (shifted n.values j n.numKeys) j val }
  have hok : n.insertPair key val = .ok n' := by
    simp only [insertPair, hrun, setKey, setValue, if_pos hj, Bind.bind, Except.bind, Pure.pure,
      Except.pure, n']
  refine ⟨n', j, hok, hfree, ?_, rfl, rfl, rfl⟩
  have hpair : (fun m => (n'.keys m, n'.values m)) =
      Function.update (shifted (fun m => (n.keys m, n.values m)) j n.numKeys) j (key, val) := by
    funext m
    by_cases hm : m = j
    · subst hm
      simp [n']
    · simp only [n', Function.update_of_ne hm, shifted]
      split <;> rfl
  rw [pairs, hpair]
  exact map_update_shifted _ hfree.le _

/-- The insertion of a separator and the child behind it into an internal node that is not
full. -/
theorem insertChild_spec {n : BPTNode} (key pid : ℕ) (h : n.numKeys < bptOrder) :
    ∃ n' j, n.insertChild key pid = .ok n' ∧ FreeSlot n.keys key n.numKeys j ∧
      n'.seps = n.seps.take j ++ key :: n.seps.drop j ∧
      n'.kids = n.kids.take (j + 1) ++ pid :: n.kids.drop (j + 1) ∧
      n'.type = n.type ∧ n'.numKeys = n.numKeys + 1 := by
  obtain ⟨j, hfree, hrun⟩ := n.shiftChildren_spec key h
  have hj : j < bptOrder := by have := hfree.le; omega
  let n' : BPTNode := { n with
    numKeys := n.numKeys + 1
    keys := Function.update (shifted n.keys j n.numKeys) j key
    children := Function.update (shifted n.children (j + 1) (n.numKeys + 1)) (j + 1) pid }
  have hok : n.insertChild key pid = .ok n' := by
    simp only [insertChild, hrun, setKey, setChild, if_pos hj,
      if_pos (show j + 1 < bptOrder + 1 by omega), Bind.bind, Except.bind, Pure.pure,
      Except.pure, n']
  exact ⟨n', j, hok, hfree, map_update_shifted _ hfree.le _,
    map_update_shifted _ (by have := hfree.le; omega) _, rfl, rfl⟩

theorem mem_take_pairs {n : BPTNode} {j : ℕ} {p : ℕ × ℕ} (h : p ∈ n.pairs.take j) :
    ∃ m < j, m < n.numKeys ∧ p = (n.keys m, n.values m) := by
  obtain ⟨m, hm, rfl⟩ := List.mem_iff_getElem.mp h
  simp only [List.length_take, pairs_length] at hm
  exact ⟨m, by omega, by omega, by simp [pairs]⟩

theorem mem_drop_pairs {n : BPTNode} {j : ℕ} {p : ℕ × ℕ} (h : p ∈ n.pairs.drop j) :
    ∃ m, j ≤ m ∧ m < n.numKeys ∧ p = (n.keys m, n.values m) := by
  obtain ⟨m, hm, rfl⟩ := List.mem_iff_getElem.mp h
  simp only [List.length_drop, pairs_length] at hm
  exact ⟨j + m, by omega, by omega, by simp [pairs]⟩

theorem keys_le_of_sorted {n : BPTNode} (h : SortedKeys n.pairs) {a b : ℕ} (hab : a ≤ b)
    (hb : b < n.numKeys) : n.keys a ≤ n.keys b := by
  rcases Nat.eq_or_lt_of_le hab with rfl | hlt
  · exact le_rfl
  · simpa [pairs] using List.pairwise_iff_getElem.mp h a b (by simp; omega) (by simpa) hlt

/-- An insertion at the free slot keeps the entries sorted. -/
theorem FreeSlot.sorted_insert {n : BPTNode} {key j : ℕ} (hfree : FreeSlot n.keys key n.numKeys j)
    (hsorted : SortedKeys n.pairs) (val : ℕ) :
    SortedKeys (n.pairs.take j ++ (key, val) :: n.pairs.drop j) := by
  have hleft : ∀ p ∈ n.pairs.take j, p.1 ≤ key := by
    intro p hp
    obtain ⟨m, hmj, -, rfl⟩ := mem_take_pairs hp
    have hlast := hfree.le
    exact (keys_le_of_sorted hsorted (by omega) (by omega)).trans (hfree.below (by omega))
  have hright : ∀ p ∈ n.pairs.drop j, key ≤ p.1 := by
    intro p hp
    obtain ⟨m, hjm, hm, rfl⟩ := mem_drop_pairs hp
    exact (hfree.above m hjm hm).le
  refine List.pairwise_append.mpr ⟨hsorted.sublist (List.take_sublist _ _),
    List.pairwise_cons.mpr ⟨hright, hsorted.sublist (List.drop_sublist _ _)⟩, ?_⟩
  intro p hp q hq
  rcases List.mem_cons.mp hq with rfl | hq
  · exact hleft p hp
  · exact (hleft p hp).trans (hright q hq)

/-- The free slot of a separator that has a place of its own. -/
theorem FreeSlot.eq_of_place {n : BPTNode} {key j : ℕ} (hfree : FreeSlot n.keys key n.numKeys j)
    {left right : List ℕ} (hseps : n.seps = left ++ right) (hleft : ∀ s ∈ left, s ≤ key)
    (hright : ∀ s ∈ right, key < s) : j = left.length := by
  have hlen : n.numKeys = left.length + right.length := by
    rw [← n.seps_length, hseps, List.length_append]
  have hget : ∀ m, m < n.numKeys → (left ++ right)[m]? = some (n.keys m) := fun m hm => by
    rw [← hseps, seps_getElem? hm]
  rcases lt_trichotomy j left.length with hlt | heq | hgt
  · have habove := hfree.above (left.length - 1) (by omega) (by omega)
    have hmem := hget (left.length - 1) (by omega)
    rw [List.getElem?_append_left (by omega)] at hmem
    have := hleft _ (List.mem_of_getElem? hmem)
    omega
  · exact heq
  · have hle := hfree.le
    have hbelow := hfree.below (by omega)
    have hmem := hget (j - 1) (by omega)
    rw [List.getElem?_append_right (by omega)] at hmem
    have := hright _ (List.mem_of_getElem? hmem)
    omega

/-- Appending pairs to a leaf that has room for them. -/
theorem fill_spec (n : BPTNode) (ps : List (ℕ × ℕ)) (h : n.numKeys + ps.length ≤ bptOrder) :
    ∃ n', n.fill ps = .ok n' ∧ n'.pairs = n.pairs ++ ps ∧ n'.type = n.type ∧
      n'.nextLeaf = n.nextLeaf ∧ n'.numKeys = n.numKeys + ps.length := by
  induction ps generalizing n with
  | nil => exact ⟨n, rfl, by simp, rfl, rfl, rfl⟩
  | cons p ps ih =>
    simp only [List.length_cons] at h
    let m : BPTNode := { n with
      numKeys := n.numKeys + 1
      keys := Function.update n.keys n.numKeys p.1
      values := Function.update n.values n.numKeys p.2 }
    have hm : m.pairs = n.pairs ++ [p] := by
      rw [pairs, List.range_succ, List.map_append]
      congr 1
      · apply List.map_congr_left
        intro i hi
        have : i ≠ n.numKeys := by have := List.mem_range.mp hi; omega
        simp [m, Function.update_of_ne this]
      · simp [m]
    obtain ⟨n', hok, hpairs, htype, hnext, hnum⟩ := ih m (by simp only [m]; omega)
    refine ⟨n', ?_, by simp [hpairs, hm], htype, hnext, ?_⟩
    · simpa only [fill, setKey, setValue, if_pos (show n.numKeys < bptOrder by omega), Bind.bind,
        Except.bind] using hok
    · simp only [hnum, m, List.length_cons]
      omega

/-- A full leaf collects exactly its entries. -/
theorem collect_of_full {n : BPTNode} (h : n.numKeys = bptOrder) : n.collect = n.pairs := by
  rw [collect, pairs, h]

end FlexQL.BPTNode
