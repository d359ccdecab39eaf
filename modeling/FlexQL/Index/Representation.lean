import FlexQL.Index.TreeProperties

/-!
# The representation of the index

The invariant of the tree in terms of its pages, without reference to the lists by which it is
proved. It holds in every state that is reached by insertions and clearings, as long as no leaf is
split under a full root.
-/

namespace FlexQL.BPTree

open FencedLeaves ListSegment Runs

/-- A call that changes the tree. -/
inductive Op
  | insert (key rowId : ℕ)
  | clear
  deriving DecidableEq, Repr

def step (t : BPTree) : Op → Except Fault BPTree
  | .insert key rowId => t.insert key rowId
  | .clear => t.clear

/-- The call does not split a leaf under a full root. -/
def FindsRoom (t : BPTree) : Op → Prop
  | .insert key _ => ¬ SplitsUnderFullRoot t key
  | .clear => True

/-- The leaves below the root: the root itself when it is a leaf, otherwise its children. -/
def leaves (t : BPTree) : List ℕ :=
  if (t.page t.rootPid).type = .leaf then [t.rootPid] else (t.page t.rootPid).kids

/-- The separators of the root, if it has any. -/
def separators (t : BPTree) : List ℕ :=
  if (t.page t.rootPid).type = .leaf then [] else (t.page t.rootPid).seps

/-- The representation invariant. Keys may repeat. -/
structure Represented (t : BPTree) : Prop where
  /-- The tree is a single leaf or one internal root over leaves. -/
  leaf : ∀ pid ∈ t.leaves, pid < t.numPages ∧ (t.page pid).type = .leaf
  leaves_length : t.leaves.length = t.separators.length + 1
  leaves_nodup : t.leaves.Nodup
  separators_sorted : t.separators.Pairwise (· ≤ ·)
  size_le : ∀ pid ∈ t.leaves, (t.page pid).numKeys ≤ 250
  le_size : (t.page t.rootPid).type = .internal → ∀ pid ∈ t.leaves, 125 ≤ (t.page pid).numKeys
  sorted : ∀ pid ∈ t.leaves, SortedKeys (t.page pid).pairs
  le_key : ∀ i pid s : ℕ, t.leaves[i + 1]? = some pid → t.separators[i]? = some s →
    ∀ e ∈ (t.page pid).pairs, s ≤ e.1
  key_le : ∀ i pid s : ℕ, t.leaves[i]? = some pid → t.separators[i]? = some s →
    (∀ e ∈ (t.page pid).pairs, e.1 ≤ s) ∧ (t.page pid).pairs.countP (fun e => e.1 = s) ≤ 125
  /-- A key of any leaf page is also a key of the leaf that `find_leaf` reaches. -/
  routed : ∀ pid < t.numPages, (t.page pid).type = .leaf → ∀ e ∈ (t.page pid).pairs,
    ∃ q t', t.findLeaf e.1 = .ok (q, t') ∧ ∃ e' ∈ (t.page q).pairs, e'.1 = e.1
  /-- The chain from page 0 visits the leaves in the order of the root. -/
  chain : walk (fun pid => (t.page pid).nextLeaf) noPage t.numPages 0 = some t.leaves
  chain_sorted : SortedKeys (t.leaves.flatMap fun pid => (t.page pid).pairs)

variable {t : BPTree} {chain seps kids : List ℕ}

theorem Inv.leaves_eq (h : Inv t chain seps kids) : t.leaves = kids ∧ t.separators = seps := by
  rcases h.root with ⟨rfl, hroot⟩ | hr
  · have hleaf := (h.mem_kids (List.mem_of_mem_head? h.kids_head)).2.1
    rw [leaves, separators, hroot, if_pos hleaf, if_pos hleaf, h.kids_eq_of_nil]
    exact ⟨rfl, rfl⟩
  · have hne : (t.page t.rootPid).type ≠ .leaf := by simp [hr.type_eq]
    rw [leaves, separators, if_neg hne, if_neg hne]
    exact ⟨hr.kids_eq, hr.seps_eq⟩

theorem Inv.represented (h : Inv t chain seps chain) : Represented t := by
  obtain ⟨hleaves, hseps⟩ := h.leaves_eq
  have hget : ∀ {i pid : ℕ}, t.leaves[i]? = some pid →
      (chain.map fun pid => (t.page pid).pairs)[i]? = some (t.page pid).pairs := by
    intro i pid hpid
    rw [List.getElem?_map, ← hleaves, hpid, Option.map_some]
  refine ⟨?_, ?_, ?_, ?_, ?_, ?_, ?_, ?_, ?_, ?_, ?_, ?_⟩
  · rw [hleaves]
    exact fun pid hpid => ⟨(h.mem_kids hpid).1, (h.mem_kids hpid).2.1⟩
  · rw [hleaves, hseps, h.kids_length]
  · rw [hleaves]
    exact h.nodup
  · rw [hseps]
    exact h.fenced.seps_sorted
  · rw [hleaves]
    exact fun pid hpid => (h.mem_kids hpid).2.2
  · intro htype
    rw [hleaves]
    rcases h.root with ⟨rfl, hroot⟩ | hr
    · rw [hroot, (h.mem_kids (List.mem_of_mem_head? h.kids_head)).2.1] at htype
      cases htype
    · exact hr.half_le
  · intro pid hpid
    have hflat := h.fenced.sorted_flatten
    refine hflat.sublist (List.sublist_flatten_of_mem ?_)
    exact List.mem_map_of_mem (hleaves ▸ hpid)
  · intro i pid s hpid hs
    exact h.fenced.above (hget hpid) (hseps ▸ hs)
  · intro i pid s hpid hs
    have hbelow := h.fenced.below (hget hpid) (hseps ▸ hs)
    exact ⟨hbelow.le, hbelow.few⟩
  · intro pid hpid hleaf e he
    obtain ⟨leaf, hrouted, hmem⟩ := h.fenced.exists_mem_routed
      (List.mem_map_of_mem ((h.mem_iff pid).mpr ⟨hpid, hleaf⟩)) he
    rw [List.getElem?_map] at hrouted
    obtain ⟨q, hq, rfl⟩ := Option.map_eq_some_iff.mp hrouted
    obtain ⟨t', hfind, -⟩ := h.findLeaf_eq hq
    exact ⟨q, t', hfind, hmem⟩
  · rw [hleaves]
    exact h.walk_eq
  · rw [hleaves, List.flatMap_def]
    exact h.fenced.sorted_flatten

/-- Every run of insertions and clearings that never splits a leaf under a full root goes through
without a fault, no array index out of range among them, and ends in a represented tree. -/
theorem represented_of_run (file : ℕ → BPTNode) (t : BPTree) (ht : init file = .ok t)
    (ops : List Op) (hg : Guarded step FindsRoom t ops) :
    ∃ u, run step t ops = .ok u ∧ Represented u := by
  obtain ⟨t₀, ht₀, hinv, -⟩ := init_inv file
  obtain rfl : t₀ = t := Except.ok.inj (ht₀.symm.trans ht)
  let inv : List Op → BPTree → Prop := fun _ t => ∃ chain seps, Inv t chain seps chain
  have hstep : ∀ past t op, inv past t → FindsRoom t op →
      (∃ u, step t op = .ok u ∧ inv (past ++ [op]) u) ∨ ∃ f, step t op = .error f ∧ False := by
    rintro past t op ⟨chain, seps, h⟩ hroom
    cases op with
    | insert key rowId =>
      obtain ⟨u, chain', seps', hu, hinv', -⟩ := h.insert_complete rowId hroom
      exact Or.inl ⟨u, hu, chain', seps', hinv'⟩
    | clear =>
      obtain ⟨u, hu, hinv', -⟩ := clear_inv t
      exact Or.inl ⟨u, hu, _, _, hinv'⟩
  have hstart : inv [] t₀ := ⟨_, _, hinv⟩
  rcases Guarded.run_ok_or hstep [] hstart hg with ⟨u, hu, _, _, hinv'⟩ | ⟨_, _, hf⟩
  · exact ⟨u, hu, hinv'.represented⟩
  · exact hf.elim

/-- A run with a clearing and an insertion. -/
theorem represented_of_clear_insert :
    ∃ t u, init (fun _ => .init .leaf) = .ok t ∧
      run step t [.clear, .insert 5 0] = .ok u ∧ Represented u := by
  obtain ⟨t, ht, -, -⟩ := init_inv fun _ => .init .leaf
  obtain ⟨u, hu, hinv, -⟩ := clear_inv t
  obtain ⟨v, hv, hrep⟩ := represented_of_run _ t ht [.clear, .insert 5 0] ⟨trivial, fun w hw => by
    obtain rfl : u = w := Except.ok.inj (hu.symm.trans hw)
    exact ⟨hinv.not_splitsUnderFullRoot 5, fun _ _ => trivial⟩⟩
  exact ⟨t, v, ht, hv, hrep⟩

end FlexQL.BPTree
