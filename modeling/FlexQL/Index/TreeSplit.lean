import FlexQL.Index.TreeStep

/-!
# Splits

An insertion into a full leaf. The right half of the leaf always enters the chain. It enters the
root when the root has room, and then immediately behind the left half; a full root drops it.
-/

namespace FlexQL.BPTree

open FencedLeaves ListSegment

variable {t u v : BPTree} {chain seps kids : List ℕ} {key val : ℕ}

theorem SplitLeaf.of_same {t' : BPTree} {pid : ℕ} (hs : SplitLeaf t' u pid key val)
    (hsame : Same t t') : SplitLeaf t u pid key val := by
  obtain ⟨h1, h2, h3, h4, h5, h6, h7, h8, h9⟩ := hs
  simp only [hsame.page, hsame.numPages, hsame.rootPid] at *
  exact ⟨h1, h2, h3, h4, h5, h6, h7, h8, h9⟩

/-- A split needs a page. -/
theorem insertIntoLeaf_unmapped {pid : ℕ} (hpid : pid < t.numPages)
    (hfull : (t.page pid).numKeys = bptOrder) (hnum : t.numPages = mappedPages) :
    t.insertIntoLeaf pid key val = .error .unmapped := by
  have hnot : ¬ ((t.getPage pid).2.file (pageOffset pid)).numKeys < bptOrder := by
    change ¬ (t.page pid).numKeys < bptOrder
    omega
  have hnum' : (t.getPage pid).2.numPages = mappedPages := (same_getPage t pid).numPages.trans hnum
  simp only [insertIntoLeaf, read_page hpid hnum.le, if_neg hnot, createNode_of_eq .leaf hnum',
    Bind.bind, Except.bind]

/-- What a split does before the parent is told: it takes a page, or there is none left. -/
theorem Inv.insert_full (h : Inv t chain seps kids) (p : Place seps kids key) (val : ℕ)
    (hp : kids[route seps key]? = some p.pid) (hfull : (t.page p.pid).numKeys = bptOrder) :
    (t.numPages = mappedPages ∧ t.insert key val = .error .unmapped) ∨
    (t.numPages < mappedPages ∧ ∃ u, SplitLeaf t u p.pid key val ∧ t.insert key val =
      u.insertIntoParent p.pid (splitKey (t.page p.pid) key val) t.numPages) := by
  obtain ⟨hlt, -, -⟩ := h.mem_kids p.mem
  obtain ⟨t', hsame, heq⟩ := h.insert_eq val hp
  have hlt' : p.pid < t'.numPages := hsame.numPages ▸ hlt
  have hfull' : (t'.page p.pid).numKeys = bptOrder := by rwa [hsame.page]
  rcases h.fits.eq_or_lt with hnum | hnum
  · exact Or.inl ⟨hnum, heq.trans (insertIntoLeaf_unmapped hlt' hfull' (hsame.numPages.trans hnum))⟩
  · obtain ⟨u, hs, hu⟩ := insertIntoLeaf_full hlt' (hsame.numPages ▸ hnum) key val hfull'
    rw [hsame.page, hsame.numPages] at hu
    exact Or.inr ⟨hnum, u, hs.of_same hsame, heq.trans hu⟩

/-- A page other than the two halves does not change. -/
theorem SplitLeaf.other_kid {pid : ℕ} (hs : SplitLeaf t u pid key val)
    (hfits : t.numPages ≤ mappedPages) {q : ℕ} (hq : q < t.numPages) (hne : q ≠ pid) :
    u.page q = t.page q := hs.other q (by omega) hne (by omega)

/-- The chain and the entries behind a split. -/
theorem Inv.split_chain (h : Inv t chain seps kids) (p : Place seps kids key)
    (hs : SplitLeaf t u p.pid key val) (hnum : t.numPages < mappedPages)
    (hfull : (t.page p.pid).numKeys = bptOrder) :
    ∃ l r, chain = l ++ p.pid :: r ∧ p.kidsLeft.Sublist l ∧ p.kidsRight.Sublist r ∧
      Chained u (l ++ p.pid :: t.numPages :: r) ∧
      (u.stored (l ++ p.pid :: t.numPages :: r)).Perm ((key, val) :: t.stored chain) := by
  have hsub : (p.kidsLeft ++ p.pid :: p.kidsRight).Sublist chain := by
    rw [← p.kids_eq]
    exact h.sublist
  obtain ⟨l, r, rfl, hl, hr⟩ := sublist_middle hsub
  refine ⟨l, r, rfl, hl, hr, h.toChained.split hs hnum hfull, ?_⟩
  refine stored_perm_of_split h.nodup (fun q hq hne => ?_) (splitEntries_perm _ _ _)
    hs.left_pairs hs.right_pairs
  exact hs.other_kid hnum.le ((h.mem_iff q).mp hq).1 hne

/-- Both halves of a split leaf are at least half full. -/
theorem SplitLeaf.half_le {pid : ℕ} (hs : SplitLeaf t u pid key val)
    (hfits : t.numPages ≤ mappedPages) (hfull : (t.page pid).numKeys = bptOrder) {l r : List ℕ}
    (hlt : ∀ q ∈ l ++ pid :: r, q < t.numPages)
    (hhalf : ∀ q ∈ l ++ pid :: r, q ≠ pid → half ≤ (t.page q).numKeys) :
    ∀ q ∈ l ++ pid :: t.numPages :: r, half ≤ (u.page q).numKeys := by
  intro q hq
  by_cases hqp : q = pid
  · rw [hqp, hs.left_numKeys hfull]
  by_cases hqn : q = t.numPages
  · rw [hqn, hs.right_numKeys hfull]
    omega
  have hmem : q ∈ l ++ pid :: r := by
    simp only [List.mem_append, List.mem_cons, hqn, false_or] at hq ⊢
    exact hq
  rw [hs.other_kid hfits (hlt q hmem) hqp]
  exact hhalf q hmem hqp

theorem Inv.half_le_split (h : Inv t chain seps kids) (p : Place seps kids key)
    (hs : SplitLeaf t u p.pid key val) (hfull : (t.page p.pid).numKeys = bptOrder)
    (hhalf : ∀ q ∈ kids, q ≠ p.pid → half ≤ (t.page q).numKeys) :
    ∀ q ∈ p.kidsLeft ++ p.pid :: t.numPages :: p.kidsRight, half ≤ (u.page q).numKeys := by
  refine hs.half_le h.fits hfull ?_ ?_
  · intro q hq
    rw [← p.kids_eq] at hq
    exact (h.mem_kids hq).1
  · intro q hq
    rw [← p.kids_eq] at hq
    exact hhalf q hq

/-- The entries of the children behind a split, when the right half is linked. -/
theorem Inv.fenced_split (h : Inv t chain seps kids) (p : Place seps kids key)
    (hs : SplitLeaf t u p.pid key val) (hfull : (t.page p.pid).numKeys = bptOrder) :
    Fenced half (p.sepsLeft ++ splitKey (t.page p.pid) key val :: p.sepsRight)
        ((p.kidsLeft ++ p.pid :: t.numPages :: p.kidsRight).map fun q => (u.page q).pairs) ∧
      (∀ s ∈ p.sepsLeft, s ≤ splitKey (t.page p.pid) key val) ∧
      ∀ s ∈ p.sepsRight, splitKey (t.page p.pid) key val < s := by
  obtain ⟨hf, hleft, hright⟩ := (h.fenced_place p).split (by simpa using p.length_eq) p.left_le
    p.lt_right (splitEntries_sorted _ _ _) (splitEntries_perm _ _ _) (by decide)
    (splitEntries_length key val hfull) (splitKey_eq key val hfull)
  obtain ⟨hl, hr⟩ := h.map_place (u := u) p fun q hq hne =>
    hs.other_kid h.fits (h.mem_kids hq).1 hne
  refine ⟨?_, hleft, ?_⟩
  · rw [List.map_append, List.map_cons, List.map_cons, hl, hr, hs.left_pairs, hs.right_pairs]
    exact hf
  · have hsorted := hf.seps_sorted
    rw [List.pairwise_append, List.pairwise_cons] at hsorted
    cases hsr : p.sepsRight with
    | nil => simp
    | cons y ys =>
      rw [hsr] at hsorted hright
      have hlt := hright y rfl
      intro s hs
      rcases List.mem_cons.mp hs with rfl | hs
      · exact hlt
      · exact lt_of_lt_of_le hlt ((List.pairwise_cons.mp hsorted.2.1.2).1 s hs)

/-- The tree behind a split whose right half is linked. The tree `v` has the leaves of `u` and an
internal root with the new separator and the new child. -/
theorem Inv.of_link (h : Inv t chain seps kids) (p : Place seps kids key)
    (hs : SplitLeaf t u p.pid key val) (hnum : t.numPages < mappedPages)
    (hfull : (t.page p.pid).numKeys = bptOrder) (hfits : v.numPages ≤ mappedPages)
    (hleaf : ∀ q, q < v.numPages ∧ (v.page q).type = .leaf ↔
      q < u.numPages ∧ (u.page q).type = .leaf)
    (hpage : ∀ q < u.numPages, (u.page q).type = .leaf → v.page q = u.page q)
    (hnumPages : v.numPages + min seps.length 1 = t.numPages + 2)
    (hroot : v.Root (p.sepsLeft ++ splitKey (t.page p.pid) key val :: p.sepsRight)
      (p.kidsLeft ++ p.pid :: t.numPages :: p.kidsRight)) :
    ∃ chain', Inv v chain' (p.sepsLeft ++ splitKey (t.page p.pid) key val :: p.sepsRight)
        (p.kidsLeft ++ p.pid :: t.numPages :: p.kidsRight) ∧
      (v.stored chain').Perm ((key, val) :: t.stored chain) ∧
      (kids = chain → chain' = p.kidsLeft ++ p.pid :: t.numPages :: p.kidsRight) ∧
      (v.page t.numPages).numKeys = half + 1 ∧
      ((∀ q ∈ chain, q ≠ p.pid → half ≤ (t.page q).numKeys) →
        ∀ q ∈ chain', half ≤ (v.page q).numKeys) := by
  obtain ⟨l, r, hchain, hl, hr, hchained, hperm⟩ := h.split_chain p hs hnum hfull
  obtain ⟨hfenced, -, -⟩ := h.fenced_split p hs hfull
  have hsame : ∀ q ∈ l ++ p.pid :: t.numPages :: r, v.page q = u.page q := fun q hq =>
    hpage q ((hchained.mem_iff q).mp hq).1 ((hchained.mem_iff q).mp hq).2
  have hsub : (p.kidsLeft ++ p.pid :: t.numPages :: p.kidsRight).Sublist
      (l ++ p.pid :: t.numPages :: r) := hl.append ((hr.cons_cons _).cons_cons _)
  refine ⟨l ++ p.pid :: t.numPages :: r, ⟨hchained.congr hfits hsame hleaf, ⟨hsub, ?_, ?_,
    Or.inr hroot⟩, ?_⟩, ?_, ?_, ?_, ?_⟩
  · have hhead : (p.kidsLeft ++ p.pid :: p.kidsRight).head? = some 0 := p.kids_eq ▸ h.kids_head
    cases hkl : p.kidsLeft <;> simpa [hkl] using hhead
  · rw [List.map_congr_left (g := fun q => (u.page q).pairs) fun q hq => by
      rw [hsame q (hsub.subset hq)]]
    exact hfenced
  · have := h.numPages_eq
    rw [hchain] at this
    simp only [List.length_append, List.length_cons] at this ⊢
    omega
  · rwa [stored_congr hsame]
  · intro hkids
    have hlen : (p.kidsLeft ++ p.pid :: p.kidsRight).length = (l ++ p.pid :: r).length :=
      congrArg List.length (p.kids_eq.symm.trans (hkids.trans hchain))
    have h1 := hl.length_le
    have h2 := hr.length_le
    simp only [List.length_append, List.length_cons] at hlen
    rw [hl.eq_of_length (by omega), hr.eq_of_length (by omega)]
  · rw [hsame _ (by simp), hs.right_numKeys hfull]
  · intro hhalf q hq
    rw [hsame q hq]
    refine hs.half_le h.fits hfull (fun q hq => ?_) (hchain ▸ hhalf) q hq
    exact ((h.mem_iff q).mp (hchain ▸ hq)).1

/-! ## Telling the parent -/

/-- The split of the root leaf. -/
theorem Inv.insert_newRoot (h : Inv t chain [] kids) (p : Place [] kids key) (val : ℕ)
    (hp : kids[route [] key]? = some p.pid) (hfull : (t.page p.pid).numKeys = bptOrder) :
    (mappedPages ≤ t.numPages + 1 ∧ t.insert key val = .error .unmapped) ∨
    ∃ v chain', t.insert key val = .ok v ∧
      Inv v chain' (p.sepsLeft ++ splitKey (t.page p.pid) key val :: p.sepsRight)
        (p.kidsLeft ++ p.pid :: t.numPages :: p.kidsRight) ∧
      (v.stored chain').Perm ((key, val) :: t.stored chain) ∧
      (kids = chain → chain' = p.kidsLeft ++ p.pid :: t.numPages :: p.kidsRight) ∧
      (v.page t.numPages).numKeys = half + 1 ∧
      ((∀ q ∈ chain, q ≠ p.pid → half ≤ (t.page q).numKeys) →
        ∀ q ∈ chain', half ≤ (v.page q).numKeys) := by
  rcases h.insert_full p val hp hfull with ⟨hnum, herr⟩ | ⟨hnum, u, hs, hins⟩
  · exact Or.inl ⟨by omega, herr⟩
  have hunum := hs.numPages
  obtain ⟨hsl, hsr⟩ : p.sepsLeft = [] ∧ p.sepsRight = [] := by simpa using p.seps_eq.symm
  have hkids : p.kidsLeft = [] ∧ p.pid = 0 ∧ p.kidsRight = [] := by
    have hlen := p.length_eq
    have hk : [0] = p.kidsLeft ++ p.pid :: p.kidsRight := h.kids_eq_of_nil.symm.trans p.kids_eq
    rw [hsl] at hlen
    obtain hkl : p.kidsLeft = [] := List.length_eq_zero_iff.mp hlen.symm
    rw [hkl] at hk
    simpa [eq_comm] using And.intro hkl hk
  have hroot : p.pid = u.rootPid := by
    rcases h.root with ⟨-, hr⟩ | hr
    · rw [hs.rootPid, hr, hkids.2.1]
    · exact absurd rfl hr.nonempty
  rw [hins]
  by_cases hmapped : u.numPages < mappedPages
  · obtain ⟨v, hv, hvroot, hvnum, hvtype, hvseps, hvkids, hvother⟩ :=
      insertIntoParent_newRoot (splitKey (t.page p.pid) key val) t.numPages hroot hmapped
    have hhalf := h.half_le_split p hs hfull fun q hq hne => by
      rw [h.kids_eq_of_nil] at hq
      rw [hkids.2.1] at hne
      exact absurd (List.mem_singleton.mp hq) hne
    have hleaf : ∀ q, q < v.numPages ∧ (v.page q).type = .leaf ↔
        q < u.numPages ∧ (u.page q).type = .leaf := by
      intro q
      by_cases hq : q = u.numPages
      · subst hq
        simp [hvtype]
      · rw [hvnum]
        constructor
        · rintro ⟨hlt, htype⟩
          rw [hvother q (by omega) hq] at htype
          exact ⟨by omega, htype⟩
        · rintro ⟨hlt, htype⟩
          rw [hvother q (by omega) hq]
          exact ⟨by omega, htype⟩
    have hvr : v.Root (p.sepsLeft ++ splitKey (t.page p.pid) key val :: p.sepsRight)
        (p.kidsLeft ++ p.pid :: t.numPages :: p.kidsRight) := by
      refine ⟨by omega, ?_, ?_, ?_, ?_, by simp, fun q hq => ?_⟩
      · rw [hvroot, hvtype]
      · rw [hvroot, hvseps, hsl, hsr]
        rfl
      · rw [hvroot, hvkids, hkids.1, hkids.2.2]
        rfl
      · simp [hsl, hsr, bptOrder]
      · have hqlt : q < u.numPages := by
          simp only [hkids.1, hkids.2.2, List.nil_append, List.mem_cons, List.not_mem_nil,
            or_false] at hq
          rcases hq with rfl | rfl
          · have := (h.mem_kids p.mem).1
            omega
          · omega
        rw [hvother q (by omega) (by omega)]
        exact hhalf q hq
    obtain ⟨chain', hinv⟩ := h.of_link p hs hnum hfull (by omega) hleaf
      (fun q hq _ => hvother q (by omega) (by omega)) (by simp; omega) hvr
    exact Or.inr ⟨v, chain', hv, hinv⟩
  · have hnum' : u.numPages = mappedPages := by omega
    exact Or.inl ⟨by omega, insertIntoParent_unmapped _ _ hroot hnum'⟩

/-- The root behind the split of a leaf below it, before it is told. -/
theorem Inv.root_split (h : Inv t chain seps kids) (hr : t.Root seps kids)
    (p : Place seps kids key) (hs : SplitLeaf t u p.pid key val)
    (hfull : (t.page p.pid).numKeys = bptOrder) : u.Root seps kids := by
  have hne : t.rootPid ≠ p.pid := (hr.ne_of_leaf (h.mem_kids p.mem).2.1).symm
  refine hr.congr hs.rootPid (by have := hs.numPages; omega)
    (hs.other_kid h.fits hr.lt hne) fun q hq => ?_
  refine h.half_le_split p hs hfull (fun q hq _ => hr.half_le q hq) q ?_
  have hmem : q ∈ p.kidsLeft ++ p.pid :: p.kidsRight := p.kids_eq ▸ hq
  simp only [List.mem_append, List.mem_cons] at hmem ⊢
  tauto

/-- The split of a leaf below a root with room. -/
theorem Inv.insert_linked (h : Inv t chain seps kids) (hr : t.Root seps kids)
    (p : Place seps kids key) (val : ℕ)
    (hp : kids[route seps key]? = some p.pid) (hfull : (t.page p.pid).numKeys = bptOrder)
    (hroom : seps.length < bptOrder) :
    (mappedPages ≤ t.numPages + 1 ∧ t.insert key val = .error .unmapped) ∨
    ∃ v chain', t.insert key val = .ok v ∧
      Inv v chain' (p.sepsLeft ++ splitKey (t.page p.pid) key val :: p.sepsRight)
        (p.kidsLeft ++ p.pid :: t.numPages :: p.kidsRight) ∧
      (v.stored chain').Perm ((key, val) :: t.stored chain) ∧
      (kids = chain → chain' = p.kidsLeft ++ p.pid :: t.numPages :: p.kidsRight) ∧
      (v.page t.numPages).numKeys = half + 1 ∧
      ((∀ q ∈ chain, q ≠ p.pid → half ≤ (t.page q).numKeys) →
        ∀ q ∈ chain', half ≤ (v.page q).numKeys) := by
  rcases h.insert_full p val hp hfull with ⟨hnum, herr⟩ | ⟨hnum, u, hs, hins⟩
  · exact Or.inl ⟨by omega, herr⟩
  have hunum := hs.numPages
  have hru := h.root_split hr p hs hfull
  have hneu : p.pid ≠ u.rootPid := hru.ne_of_leaf (hs.left_type.trans (h.mem_kids p.mem).2.1)
  obtain ⟨v, n, hv, hn, hvroot, hvnum, hvpage, hvother⟩ :=
    insertIntoParent_room hru (by omega) p.mem hneu (splitKey (t.page p.pid) key val) t.numPages
      hroom
  obtain ⟨n', j, hn', hfree, hnseps, hnkids, hntype, -⟩ :=
    BPTNode.insertChild_spec (n := u.page u.rootPid) (splitKey (t.page p.pid) key val) t.numPages
      (hru.numKeys_eq ▸ hroom)
  obtain rfl : n' = n := Except.ok.inj (hn'.symm.trans hn)
  obtain ⟨-, hleft, hright⟩ := h.fenced_split p hs hfull
  have hj : j = p.sepsLeft.length :=
    hfree.eq_of_place (hru.seps_eq.trans p.seps_eq) hleft hright
  have hkj : j + 1 = (p.kidsLeft ++ [p.pid]).length := by
    rw [hj, p.length_eq, List.length_append, List.length_singleton]
  have hkids : (u.page u.rootPid).kids = (p.kidsLeft ++ [p.pid]) ++ p.kidsRight := by
    rw [hru.kids_eq, List.append_assoc, List.singleton_append, ← p.kids_eq]
  have hseps : (u.page u.rootPid).seps = p.sepsLeft ++ p.sepsRight :=
    hru.seps_eq.trans p.seps_eq
  have hleaf : ∀ q, q < v.numPages ∧ (v.page q).type = .leaf ↔
      q < u.numPages ∧ (u.page q).type = .leaf := by
    intro q
    rw [hvnum]
    refine and_congr_right fun hq => ?_
    by_cases hqr : q = u.rootPid
    · rw [hqr, hvpage, hntype]
    · rw [hvother q (by omega) hqr]
  have hvr : v.Root (p.sepsLeft ++ splitKey (t.page p.pid) key val :: p.sepsRight)
      (p.kidsLeft ++ p.pid :: t.numPages :: p.kidsRight) := by
    refine ⟨by have := hru.lt; omega, ?_, ?_, ?_, ?_, by simp, fun q hq => ?_⟩
    · rw [hvroot, hvpage, hntype, hru.type_eq]
    · rw [hvroot, hvpage, hnseps, hseps, hj, List.take_left, List.drop_left]
    · rw [hvroot, hvpage, hnkids, hkids, hkj, List.take_left, List.drop_left]
      simp
    · have hlen := congrArg List.length p.seps_eq
      simp only [List.length_append, List.length_cons] at hlen ⊢
      omega
    · have hhalf := h.half_le_split p hs hfull (fun q hq _ => hr.half_le q hq) q hq
      have hqleaf : q < u.numPages ∧ (u.page q).type = .leaf := by
        obtain ⟨l, r, -, hl, hr', hchained, -⟩ := h.split_chain p hs hnum hfull
        exact (hchained.mem_iff q).mp
          ((hl.append ((hr'.cons_cons _).cons_cons _)).subset hq)
      rwa [hvother q (by omega) (hru.ne_of_leaf hqleaf.2)]
  obtain ⟨chain', hinv⟩ := h.of_link p hs hnum hfull (by omega) hleaf
    (fun q hq hleaf => hvother q (by omega) (hru.ne_of_leaf hleaf))
    (by have := List.length_pos_iff.mpr hr.nonempty; omega) hvr
  exact Or.inr ⟨v, chain', hins.trans hv, hinv⟩

/-- The split of a leaf below a full root: the right half is in the chain only. -/
theorem Inv.insert_dropped (h : Inv t chain seps kids) (hr : t.Root seps kids)
    (p : Place seps kids key) (val : ℕ)
    (hp : kids[route seps key]? = some p.pid) (hfull : (t.page p.pid).numKeys = bptOrder)
    (hroot : seps.length = bptOrder) :
    (mappedPages ≤ t.numPages + 1 ∧ t.insert key val = .error .unmapped) ∨
    ∃ v chain', t.insert key val = .ok v ∧ Inv v chain' seps kids ∧
      (v.stored chain').Perm ((key, val) :: t.stored chain) ∧
      (v.page p.pid).pairs = (splitEntries (t.page p.pid) key val).take half ∧
      ((∀ q ∈ chain, q ≠ p.pid → half ≤ (t.page q).numKeys) →
        ∀ q ∈ chain', half ≤ (v.page q).numKeys) := by
  rcases h.insert_full p val hp hfull with ⟨hnum, herr⟩ | ⟨hnum, u, hs, hins⟩
  · exact Or.inl ⟨by omega, herr⟩
  have hru := h.root_split hr p hs hfull
  have hneu : p.pid ≠ u.rootPid := hru.ne_of_leaf (hs.left_type.trans (h.mem_kids p.mem).2.1)
  obtain ⟨v, hv, hsame⟩ := insertIntoParent_full hru (by have := hs.numPages; omega) p.mem hneu
    (splitKey (t.page p.pid) key val) t.numPages hroot
  obtain ⟨l, r, hchain, hl, hr', hchained, hperm⟩ := h.split_chain p hs hnum hfull
  have hinv : Inv u (l ++ p.pid :: t.numPages :: r) seps kids := by
    refine ⟨hchained, ⟨?_, h.kids_head, ?_, Or.inr hru⟩, ?_⟩
    · have hsub : (p.kidsLeft ++ p.pid :: p.kidsRight).Sublist (l ++ p.pid :: t.numPages :: r) :=
        hl.append ((hr'.cons _).cons_cons _)
      rwa [← p.kids_eq] at hsub
    · obtain ⟨hl, hr⟩ := h.map_place (u := u) p fun q hq hne =>
        hs.other_kid h.fits (h.mem_kids hq).1 hne
      rw [p.map_eq fun q => (u.page q).pairs, hl, hr, hs.left_pairs]
      have := (h.fenced_place p).keep_left (by simpa using p.length_eq) p.left_le p.lt_right
        (splitEntries_sorted (t.page p.pid) key val) (splitEntries_perm _ _ _)
        (show 0 < half by decide)
      rwa [← p.seps_eq] at this
    · have := h.numPages_eq
      rw [hchain] at this
      rw [hs.numPages, this]
      simp only [List.length_append, List.length_cons]
      omega
  refine Or.inr ⟨v, _, hins.trans hv, hinv.same hsame, ?_, ?_, ?_⟩
  · rwa [stored_congr fun q _ => hsame.page q]
  · rw [hsame.page, hs.left_pairs]
  · intro hhalf q hq
    rw [hsame.page]
    refine hs.half_le h.fits hfull (fun q hq => ?_) (hchain ▸ hhalf) q hq
    exact ((h.mem_iff q).mp (hchain ▸ hq)).1

end FlexQL.BPTree
