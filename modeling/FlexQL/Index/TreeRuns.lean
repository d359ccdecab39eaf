import FlexQL.Index.TreeSplit

/-!
# Runs of insertions

Every insertion into a reachable tree takes one of three courses, and a run of insertions either
keeps the invariant or ends at a page outside the mapping.
-/

namespace FlexQL.BPTree

open FencedLeaves ListSegment Runs

variable {t u v : BPTree} {chain seps kids : List ℕ} {key val : ℕ}

/-- The state in which `insert` would split a leaf whose parent cannot take another child: the root
is internal and full, and so is the leaf that `find_leaf` reaches. -/
def SplitsUnderFullRoot (t : BPTree) (key : ℕ) : Prop :=
  (t.page t.rootPid).type = .internal ∧ (t.page t.rootPid).numKeys = bptOrder ∧
    ∃ pid t', t.findLeaf key = .ok (pid, t') ∧ (t.page pid).numKeys = bptOrder

theorem Inv.splitsUnderFullRoot (h : Inv t chain seps kids) {pid : ℕ}
    (hpid : kids[route seps key]? = some pid) (hfull : (t.page pid).numKeys = bptOrder)
    (hseps : seps.length = bptOrder) : SplitsUnderFullRoot t key := by
  rcases h.root with ⟨rfl, -⟩ | hr
  · simp [bptOrder] at hseps
  · obtain ⟨t', hfind, -⟩ := h.findLeaf_eq hpid
    exact ⟨hr.type_eq, hr.numKeys_eq.trans hseps, pid, t', hfind, hfull⟩

/-- A root that is a leaf has no full parent above its children. -/
theorem Inv.not_splitsUnderFullRoot (h : Inv t chain [] kids) (key : ℕ) :
    ¬ SplitsUnderFullRoot t key := by
  rintro ⟨htype, -⟩
  rcases h.root with ⟨-, hroot⟩ | hr
  · have hzero := (h.mem_kids (List.mem_of_mem_head? h.kids_head)).2.1
    rw [hroot, hzero] at htype
    cases htype
  · exact hr.nonempty rfl

/-! ## New trees -/

theorem inv_of_createNode (t : BPTree) (hnum : t.numPages = 0) :
    ∃ pid u, t.createNode .leaf = .ok (pid, u) ∧ Inv { u with rootPid := pid } [0] [] [0] ∧
      { u with rootPid := pid }.stored [0] = [] := by
  obtain ⟨u, hu, -, hunum, hfile⟩ := createNode_of_lt (t := t) .leaf (by rw [hnum]; decide)
  rw [hnum] at hu hunum hfile
  have hpage : ({ u with rootPid := 0 } : BPTree).page 0 = .init .leaf := by
    change u.file _ = _
    rw [hfile, Function.update_self]
  have hunum' : ({ u with rootPid := 0 } : BPTree).numPages = 1 := hunum
  refine ⟨0, u, hu, ⟨⟨?_, rfl, by simp, ?_, ?_, ?_⟩, ⟨List.Sublist.refl _, rfl, ?_, Or.inl ⟨rfl, rfl⟩⟩,
    hunum'⟩, ?_⟩
  · rw [hunum']
    decide
  · exact ⟨congrArg BPTNode.nextLeaf hpage, trivial⟩
  · intro pid
    rw [hunum', List.mem_singleton]
    constructor
    · rintro rfl
      exact ⟨by omega, by rw [hpage]; rfl⟩
    · rintro ⟨hlt, -⟩
      omega
  · intro pid hpid
    rw [List.mem_singleton.mp hpid, hpage]
    decide
  · rw [List.map_singleton, hpage]
    exact List.Pairwise.nil
  · rw [stored, List.flatMap_singleton, hpage]
    rfl

/-- The constructor starts with one empty leaf, whatever the file holds. -/
theorem init_inv (file : ℕ → BPTNode) :
    ∃ t, init file = .ok t ∧ Inv t [0] [] [0] ∧ t.stored [0] = [] := by
  obtain ⟨pid, u, hu, hinv, hstored⟩ := inv_of_createNode ⟨.init 256, noPage, file⟩ rfl
  refine ⟨_, ?_, hinv, hstored⟩
  simp only [init, CacheManager.init_numPages, if_true, hu, Bind.bind, Except.bind, Pure.pure,
    Except.pure]

/-- So does `clear`. -/
theorem clear_inv (t : BPTree) : ∃ u, t.clear = .ok u ∧ Inv u [0] [] [0] ∧ u.stored [0] = [] := by
  obtain ⟨pid, u, hu, hinv, hstored⟩ :=
    inv_of_createNode { t with cacheManager := t.cacheManager.clear.clearPager } rfl
  refine ⟨_, ?_, hinv, hstored⟩
  simp only [clear, hu, Bind.bind, Except.bind, Pure.pure, Except.pure]

/-! ## One step -/

/-- The ways in which an insertion can go. -/
theorem Inv.insert_cases (h : Inv t chain seps kids) (key val : ℕ) :
    (mappedPages ≤ t.numPages + 1 ∧ t.insert key val = .error .unmapped) ∨
    ∃ u chain' seps' kids', t.insert key val = .ok u ∧ Inv u chain' seps' kids' ∧
      (u.stored chain').Perm ((key, val) :: t.stored chain) ∧
      (seps' = [] → seps = []) ∧ (¬ SplitsUnderFullRoot t key → kids = chain → kids' = chain') ∧
      ((seps = [] → kids = chain) → (seps ≠ [] → ∀ q ∈ chain, half ≤ (t.page q).numKeys) →
        seps' ≠ [] → ∀ q ∈ chain', half ≤ (u.page q).numKeys) := by
  obtain ⟨p, hp⟩ := exists_place key h.kids_length
  rcases (h.mem_kids p.mem).2.2.lt_or_eq with hroom | hfull
  · obtain ⟨u, hu, hinv, hperm, -, hkeys⟩ := h.insert_room p val hp hroom
    refine Or.inr ⟨u, chain, seps, kids, hu, hinv, hperm, id, fun _ hk => hk, ?_⟩
    exact fun _ hhalf hne q hq => (hhalf hne q hq).trans (hkeys q hq)
  rcases h.root with ⟨rfl, -⟩ | hr
  · refine (h.insert_newRoot p val hp hfull).imp id ?_
    rintro ⟨v, chain', hv, hinv, hperm, hkids, -, hhalf⟩
    refine ⟨v, chain', _, _, hv, hinv, hperm, by simp, fun _ hk => (hkids hk).symm, ?_⟩
    intro hlinked _ _
    refine hhalf fun q hq hne => absurd ?_ hne
    rw [← hlinked rfl, h.kids_eq_of_nil] at hq
    have hpid : ∀ x ∈ kids, x = 0 := by simp [h.kids_eq_of_nil]
    exact (List.mem_singleton.mp hq).trans (hpid _ p.mem).symm
  rcases hr.length_le.lt_or_eq with hroom | hroot
  · refine (h.insert_linked hr p val hp hfull hroom).imp id ?_
    rintro ⟨v, chain', hv, hinv, hperm, hkids, -, hhalf⟩
    exact ⟨v, chain', _, _, hv, hinv, hperm, by simp, fun _ hk => (hkids hk).symm,
      fun _ hold _ => hhalf fun q hq _ => hold hr.nonempty q hq⟩
  · refine (h.insert_dropped hr p val hp hfull hroot).imp id ?_
    rintro ⟨v, chain', hv, hinv, hperm, -, hhalf⟩
    exact ⟨v, chain', _, _, hv, hinv, hperm, id, fun hn =>
      absurd (h.splitsUnderFullRoot hp hfull hroot) hn,
      fun _ hold _ => hhalf fun q hq _ => hold hr.nonempty q hq⟩

/-- As long as the root knows all leaves there are few pages. -/
theorem Inv.numPages_le (h : Inv t chain seps chain) : t.numPages ≤ bptOrder + 2 := by
  have hnum := h.numPages_eq
  have hlen := h.kids_length
  rcases h.root with ⟨rfl, -⟩ | hr
  · simp only [List.length_nil] at hlen hnum
    omega
  · have := hr.length_le
    omega

/-- A step of a tree whose root knows all leaves, unless it splits a leaf under a full root. -/
theorem Inv.insert_complete (h : Inv t chain seps chain) (val : ℕ)
    (hn : ¬ SplitsUnderFullRoot t key) :
    ∃ u chain' seps', t.insert key val = .ok u ∧ Inv u chain' seps' chain' ∧
      (u.stored chain').Perm ((key, val) :: t.stored chain) := by
  rcases h.insert_cases key val with ⟨hnum, -⟩ |
      ⟨u, chain', seps', kids', hu, hinv, hperm, -, hkids, -⟩
  · have := h.numPages_le
    simp only [mappedPages, bptOrder] at *
    omega
  · obtain rfl := hkids hn rfl
    exact ⟨u, kids', seps', hu, hinv, hperm⟩

/-! ## What a search returns -/

/-- A hit is an entry of the chain, and searching changes nothing but the cache. -/
theorem Inv.search_sound (h : Inv t chain seps kids) (key : ℕ) :
    ∃ r t', t.search key = .ok (r, t') ∧ Same t t' ∧ ∀ v, r = some v → (key, v) ∈ t.stored chain := by
  obtain ⟨p, hp⟩ := exists_place key h.kids_length
  obtain ⟨t', hsearch, hsame⟩ := h.search_eq hp
  refine ⟨_, t', hsearch, hsame, fun v hv => ?_⟩
  obtain ⟨e, hfind, rfl⟩ := Option.map_eq_some_iff.mp hv
  have he : e = (key, e.2) := Prod.ext (by simpa using List.find?_some hfind) rfl
  exact List.mem_flatMap.mpr
    ⟨p.pid, h.sublist.subset p.mem, he ▸ List.mem_of_find?_eq_some hfind⟩

/-- A key of a linked leaf is found. -/
theorem Inv.search_complete (h : Inv t chain seps kids) {e : ℕ × ℕ} (he : e ∈ t.stored kids) :
    ∃ v t', t.search e.1 = .ok (some v, t') := by
  obtain ⟨pid, hpid, hmem⟩ := List.mem_flatMap.mp he
  obtain ⟨leaf, hleaf, e', he', hkey⟩ := h.fenced.exists_mem_routed (List.mem_map_of_mem hpid) hmem
  rw [List.getElem?_map] at hleaf
  obtain ⟨q, hq, rfl⟩ := Option.map_eq_some_iff.mp hleaf
  obtain ⟨t', hsearch, -⟩ := h.search_eq hq
  cases hfind : (t.page q).pairs.find? fun p => p.1 = e.1 with
  | none =>
    have := List.find?_eq_none.mp hfind e' he'
    simp [hkey] at this
  | some e'' => exact ⟨e''.2, t', by rw [hsearch, hfind]; rfl⟩

end FlexQL.BPTree
