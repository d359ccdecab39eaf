import FlexQL.Index.TreeInvariant

/-!
# One insertion

The effect of `insert` on the pages of a tree that satisfies the invariant. A leaf with room takes
the entry. A full leaf is split, and its right half is linked into a new root, into the old root,
or, when the root is full, nowhere at all. The only fault is a page outside the mapping.
-/

namespace FlexQL.BPTree

open FencedLeaves ListSegment

/-! ## The sorted entries of a split -/

/-- The entries of a full leaf and the new one, in the order of `std::sort`. -/
def splitEntries (n : BPTNode) (key val : ℕ) : List (ℕ × ℕ) :=
  (n.pairs ++ [(key, val)]).mergeSort pairLe

theorem pairLe_trans (a b c : ℕ × ℕ) (hab : pairLe a b = true) (hbc : pairLe b c = true) :
    pairLe a c = true := by
  simp only [pairLe, Bool.or_eq_true, decide_eq_true_eq, Bool.and_eq_true, beq_iff_eq] at *
  omega

theorem pairLe_total (a b : ℕ × ℕ) : (pairLe a b || pairLe b a) = true := by
  simp only [pairLe, Bool.or_eq_true, decide_eq_true_eq, Bool.and_eq_true, beq_iff_eq]
  omega

theorem splitEntries_perm (n : BPTNode) (key val : ℕ) :
    (splitEntries n key val).Perm ((key, val) :: n.pairs) :=
  (List.mergeSort_perm _ _).trans List.perm_append_comm

theorem splitEntries_sorted (n : BPTNode) (key val : ℕ) : SortedKeys (splitEntries n key val) := by
  have hsorted := List.pairwise_mergeSort pairLe_trans pairLe_total (n.pairs ++ [(key, val)])
  refine hsorted.imp fun {a b} hab => ?_
  simp only [pairLe, Bool.or_eq_true, decide_eq_true_eq, Bool.and_eq_true, beq_iff_eq] at hab
  omega

theorem splitEntries_length {n : BPTNode} (key val : ℕ) (h : n.numKeys = bptOrder) :
    (splitEntries n key val).length = 2 * half + 1 := by
  simp [splitEntries, h, bptOrder, half]

/-- The separator that a split hands to the parent: the first key of the right half. -/
def splitKey (n : BPTNode) (key val : ℕ) : ℕ := (((splitEntries n key val).drop half).headD (0, 0)).1

theorem splitKey_eq {n : BPTNode} (key val : ℕ) (h : n.numKeys = bptOrder) :
    ((splitEntries n key val).drop half).head?.map Prod.fst = some (splitKey n key val) := by
  have hlen : ((splitEntries n key val).drop half).length = half + 1 := by
    rw [List.length_drop, splitEntries_length key val h]
    omega
  unfold splitKey
  cases hd : (splitEntries n key val).drop half with
  | nil => simp [hd] at hlen
  | cons p ps => rfl

/-! ## Leaves -/

/-- The tree behind the split of the leaf `pid`, before the parent is told. The right half is on
the page that was allocated last. -/
structure SplitLeaf (t u : BPTree) (pid key val : ℕ) : Prop where
  rootPid : u.rootPid = t.rootPid
  numPages : u.numPages = t.numPages + 1
  other : ∀ q < mappedPages, q ≠ pid → q ≠ t.numPages → u.page q = t.page q
  left_type : (u.page pid).type = (t.page pid).type
  left_next : (u.page pid).nextLeaf = t.numPages
  left_pairs : (u.page pid).pairs = (splitEntries (t.page pid) key val).take half
  right_type : (u.page t.numPages).type = .leaf
  right_next : (u.page t.numPages).nextLeaf = (t.page pid).nextLeaf
  right_pairs : (u.page t.numPages).pairs = (splitEntries (t.page pid) key val).drop half

variable {t : BPTree} {pid : ℕ}

/-- A leaf with room takes the entry. -/
theorem insertIntoLeaf_room (hpid : pid < t.numPages) (hfits : t.numPages ≤ mappedPages)
    (key val : ℕ) (hroom : (t.page pid).numKeys < bptOrder) :
    ∃ u n, t.insertIntoLeaf pid key val = .ok u ∧ (t.page pid).insertPair key val = .ok n ∧
      u.rootPid = t.rootPid ∧ u.numPages = t.numPages ∧ u.page pid = n ∧
      ∀ q < mappedPages, q ≠ pid → u.page q = t.page q := by
  obtain ⟨n, -, hn, -⟩ := BPTNode.insertPair_spec key val hroom
  have hsame := same_getPage t pid
  let u := ((t.getPage pid).2.setNode (pageOffset pid) n).markDirty pid
  have hok : t.insertIntoLeaf pid key val = .ok u := by
    have hfile : (t.getPage pid).2.file (pageOffset pid) = t.page pid := rfl
    simp only [insertIntoLeaf, read_page hpid hfits, hfile, if_pos hroom, hn, Bind.bind,
      Except.bind, Pure.pure, Except.pure, u]
  refine ⟨u, n, hok, hn, rfl, ?_, page_setNode_same _ _ _, fun q hq hne => ?_⟩
  · exact (same_markDirty _ _).numPages.trans hsame.numPages
  · exact page_setNode_ne n (by omega) hq hne

/-- The distribution of the entries of a full leaf over itself and a new leaf. -/
theorem splitLeaf_spec {off newOff : ℕ} (newPid key val : ℕ) (hne : newOff ≠ off)
    (hfull : (t.file off).numKeys = bptOrder) (hnew : t.file newOff = .init .leaf) :
    ∃ left right, t.splitLeaf off newOff newPid key val = .ok ({ t with
        file := Function.update (Function.update t.file newOff right) off left }) ∧
      left.type = (t.file off).type ∧ left.nextLeaf = newPid ∧
      left.pairs = (splitEntries (t.file off) key val).take half ∧
      right.type = .leaf ∧ right.nextLeaf = (t.file off).nextLeaf ∧
      right.pairs = (splitEntries (t.file off) key val).drop half := by
  have hlen := splitEntries_length key val hfull
  have htemp : ((t.file off).collect ++ [(key, val)]).mergeSort pairLe =
      splitEntries (t.file off) key val := by
    rw [BPTNode.collect_of_full hfull, splitEntries]
  have hidx : (splitEntries (t.file off) key val).length / 2 = half := by rw [hlen]; omega
  obtain ⟨left, hleft, hlpairs, hltype, hlnext, -⟩ :=
    BPTNode.fill_spec { t.file off with numKeys := 0 } ((splitEntries (t.file off) key val).take half)
      (by simp only [List.length_take, hlen, bptOrder, half]; omega)
  obtain ⟨right, hright, hrpairs, hrtype, -, -⟩ :=
    BPTNode.fill_spec { BPTNode.init .leaf with numKeys := 0 }
      ((splitEntries (t.file off) key val).drop half)
      (by simp only [List.length_drop, hlen, bptOrder, half]; omega)
  have hfile : (t.setNode off left).file newOff = .init .leaf := by
    simp [setNode, Function.update_of_ne hne, hnew]
  refine ⟨{ left with nextLeaf := newPid }, { right with nextLeaf := (t.file off).nextLeaf }, ?_,
    hltype, rfl, by simpa [BPTNode.pairs] using hlpairs, hrtype, rfl,
    by simpa [BPTNode.pairs] using hrpairs⟩
  simp only [splitLeaf, htemp, hidx, hleft, hfile, hright, Bind.bind, Except.bind, Pure.pure,
    Except.pure]
  congr 1
  simp only [setNode, Function.update_self, Function.update_of_ne hne.symm,
    Function.update_idem, hlnext, mk.injEq, true_and]
  rw [Function.update_comm hne.symm, Function.update_idem]

/-- A full leaf is split when there is a page for its right half. -/
theorem insertIntoLeaf_full (hpid : pid < t.numPages) (hfits : t.numPages < mappedPages)
    (key val : ℕ) (hfull : (t.page pid).numKeys = bptOrder) :
    ∃ u, SplitLeaf t u pid key val ∧ t.insertIntoLeaf pid key val =
      u.insertIntoParent pid (splitKey (t.page pid) key val) t.numPages := by
  have hpid' : pid < mappedPages := by omega
  have hne : pageOffset t.numPages ≠ pageOffset pid := fun h => by
    have := pageOffset_inj hfits hpid' h
    omega
  have hsame := same_getPage t pid
  obtain ⟨c, hc, hcroot, hcnum, hcfile⟩ :=
    createNode_of_lt .leaf (show (t.getPage pid).2.numPages < mappedPages by
      rwa [hsame.numPages])
  rw [hsame.numPages] at hc hcnum hcfile
  rw [hsame.file] at hcfile
  let d := (c.getPage t.numPages).2
  have hdpid : d.file (pageOffset pid) = t.page pid := by
    change c.file _ = _
    rw [hcfile, Function.update_of_ne hne.symm, page]
  have hdnew : d.file (pageOffset t.numPages) = .init .leaf := by
    change c.file _ = _
    rw [hcfile, Function.update_self]
  obtain ⟨left, right, hsplit, hltype, hlnext, hlpairs, hrtype, hrnext, hrpairs⟩ :=
    splitLeaf_spec t.numPages key val hne (hdpid ▸ hfull) hdnew
  rw [hdpid] at hltype hlpairs hrnext hrpairs
  let e : BPTree := { d with
    file := Function.update (Function.update d.file (pageOffset t.numPages) right)
      (pageOffset pid) left }
  let u := (e.markDirty pid).markDirty t.numPages
  have hupid : u.page pid = left := Function.update_self ..
  have hunew : u.page t.numPages = right := by
    change Function.update _ _ _ _ = _
    rw [Function.update_of_ne hne, Function.update_self]
  have hkey : right.key 0 = .ok (splitKey (t.page pid) key val) := by
    have hhead := splitKey_eq key val hfull
    have hnum : 0 < right.numKeys := by
      rw [← right.pairs_length, hrpairs, List.length_drop, splitEntries_length key val hfull]
      omega
    rw [← hrpairs, List.head?_eq_getElem?, BPTNode.pairs_getElem? hnum] at hhead
    rw [BPTNode.key_of_lt (by decide)]
    exact congrArg _ (Option.some.inj hhead)
  refine ⟨u, ⟨hcroot, ?_, ?_, ?_, ?_, ?_, ?_, ?_, ?_⟩, ?_⟩
  · exact ((same_markDirty _ _).trans (same_markDirty _ _)).numPages.trans
      ((same_getPage c _).numPages.trans hcnum)
  · intro q hq hqpid hqnew
    have h1 : pageOffset q ≠ pageOffset t.numPages := fun h => hqnew (pageOffset_inj hq hfits h)
    have h2 : pageOffset q ≠ pageOffset pid := fun h => hqpid (pageOffset_inj hq hpid' h)
    change Function.update _ _ _ _ = _
    rw [Function.update_of_ne h2, Function.update_of_ne h1]
    change c.file _ = _
    rw [hcfile, Function.update_of_ne h1, page]
  · rw [hupid, hltype]
  · rw [hupid, hlnext]
  · rw [hupid, hlpairs]
  · rw [hunew, hrtype]
  · rw [hunew, hrnext]
  · rw [hunew, hrpairs]
  · have hnot : ¬ ((t.getPage pid).2.file (pageOffset pid)).numKeys < bptOrder := by
      rw [hsame.file, ← page, hfull]
      omega
    have hmapnew : mapped (c.getPage t.numPages).1 = .ok (pageOffset t.numPages) :=
      read_page (by omega) (by omega)
    simp only [insertIntoLeaf, read_page hpid hfits.le, if_neg hnot, hc, hmapnew, Bind.bind,
      Except.bind]
    rw [hsplit]
    dsimp only
    rw [show ((e.markDirty pid).markDirty t.numPages).file (pageOffset t.numPages) = right from hunew,
      hkey]

/-! ## Parents -/

/-- The split of a root leaf creates the internal root. -/
theorem insertIntoParent_newRoot (x right : ℕ) (hroot : pid = t.rootPid)
    (hfits : t.numPages < mappedPages) :
    ∃ u, t.insertIntoParent pid x right = .ok u ∧ u.rootPid = t.numPages ∧
      u.numPages = t.numPages + 1 ∧ (u.page t.numPages).type = .internal ∧
      (u.page t.numPages).seps = [x] ∧ (u.page t.numPages).kids = [pid, right] ∧
      ∀ q < mappedPages, q ≠ t.numPages → u.page q = t.page q := by
  obtain ⟨c, hc, -, hcnum, hcfile⟩ := createNode_of_lt .internal hfits
  let n : BPTNode := { BPTNode.init .internal with
    numKeys := 1
    keys := Function.update (BPTNode.init .internal).keys 0 x
    children := Function.update (Function.update (BPTNode.init .internal).children 0 pid) 1 right }
  let v := (c.getPage t.numPages).2
  let u := { v.setNode (pageOffset t.numPages) n with rootPid := t.numPages }.markDirty t.numPages
  have hfile : (c.getPage t.numPages).2.file (pageOffset t.numPages) = .init .internal := by
    change c.file _ = _
    rw [hcfile, Function.update_self]
  have hmap : mapped (c.getPage t.numPages).1 = .ok (pageOffset t.numPages) :=
    read_page (by omega) (by omega)
  have hok : t.insertIntoParent pid x right = .ok u := by
    simp only [insertIntoParent, if_pos hroot, hc, hmap, hfile, BPTNode.setKey, BPTNode.setChild,
      if_pos (show 0 < bptOrder by decide), if_pos (show 0 < bptOrder + 1 by decide),
      if_pos (show 1 < bptOrder + 1 by decide), Bind.bind, Except.bind, Pure.pure, Except.pure]
    rfl
  have hpage : u.page t.numPages = n := Function.update_self ..
  refine ⟨u, hok, rfl, ?_, ?_, ?_, ?_, ?_⟩
  · exact (same_markDirty _ _).numPages.trans ((same_getPage c _).numPages.trans hcnum)
  · rw [hpage]; rfl
  · rw [hpage]; simp [BPTNode.seps, n]
  · rw [hpage]; simp [BPTNode.kids, n, List.range_succ]
  · intro q hq hne
    have hoff : pageOffset q ≠ pageOffset t.numPages := fun h => hne (pageOffset_inj hq hfits h)
    change Function.update _ _ _ _ = _
    rw [Function.update_of_ne hoff]
    change c.file _ = _
    rw [hcfile, Function.update_of_ne hoff, page]

theorem insertIntoParent_unmapped (x right : ℕ) (hroot : pid = t.rootPid)
    (hfull : t.numPages = mappedPages) :
    t.insertIntoParent pid x right = .error .unmapped := by
  simp only [insertIntoParent, if_pos hroot, createNode_of_eq .internal hfull, Bind.bind,
    Except.bind]

/-- Below an internal root, the parent of a leaf is the root. -/
theorem findParentFrom_root {seps kids : List ℕ} (hroot : t.Root seps kids)
    (hfits : t.numPages ≤ mappedPages) (hpid : pid ∈ kids) (x fuel : ℕ) :
    t.findParentFrom pid x (fuel + 1) t.rootPid = .ok (t.rootPid, (t.getPage t.rootPid).2) := by
  have hne : t.rootPid ≠ noPage := by
    have := hroot.lt
    simp only [mappedPages] at hfits
    simp only [noPage]
    omega
  have hfile : (t.getPage t.rootPid).2.file (pageOffset t.rootPid) = t.page t.rootPid := rfl
  have hkeys : (t.page t.rootPid).numKeys ≤ bptOrder := hroot.numKeys_eq ▸ hroot.length_le
  have hhas : (t.page t.rootPid).hasChild pid ((t.page t.rootPid).numKeys + 1) 0 = .ok true := by
    rw [BPTNode.hasChild_eq pid hkeys, hroot.kids_eq, decide_eq_true hpid]
  simp only [findParentFrom, if_neg hne, read_page hroot.lt hfits, hfile, hroot.type_eq,
    reduceCtorEq, if_false, hhas, if_true, Bind.bind, Except.bind, Pure.pure, Except.pure]

/-- A root with room takes the separator and the right half. -/
theorem insertIntoParent_room {seps kids : List ℕ} (hroot : t.Root seps kids)
    (hfits : t.numPages ≤ mappedPages) (hpid : pid ∈ kids) (hne : pid ≠ t.rootPid) (x right : ℕ)
    (hroom : seps.length < bptOrder) :
    ∃ u n, t.insertIntoParent pid x right = .ok u ∧
      (t.page t.rootPid).insertChild x right = .ok n ∧ u.rootPid = t.rootPid ∧
      u.numPages = t.numPages ∧ u.page t.rootPid = n ∧
      ∀ q < mappedPages, q ≠ t.rootPid → u.page q = t.page q := by
  have hkeys : (t.page t.rootPid).numKeys < bptOrder := hroot.numKeys_eq ▸ hroom
  obtain ⟨n, -, hn, -⟩ := BPTNode.insertChild_spec x right hkeys
  have hsame := same_getPage t t.rootPid
  let c := (t.getPage t.rootPid).2
  let d := (c.getPage t.rootPid).2
  have hsame' : Same t d := hsame.trans (same_getPage c t.rootPid)
  let u := (d.setNode (pageOffset t.rootPid) n).markDirty t.rootPid
  have hnoPage : t.rootPid ≠ noPage := by
    have := hroot.lt
    simp only [mappedPages] at hfits
    simp only [noPage]
    omega
  have hok : t.insertIntoParent pid x right = .ok u := by
    have hlt : t.rootPid < c.numPages := hsame.numPages ▸ hroot.lt
    have hmap : mapped (some (pageOffset t.rootPid)) = .ok (pageOffset t.rootPid) :=
      mapped_of_lt (lt_of_lt_of_le hroot.lt hfits)
    have hfile : (c.getPage t.rootPid).2.file (pageOffset t.rootPid) = t.page t.rootPid := rfl
    simp only [insertIntoParent, if_neg hne, findParentFrom_root hroot hfits hpid x _,
      if_neg hnoPage, getPage_of_lt hlt, hmap, Bind.bind, Except.bind, Pure.pure, Except.pure, c]
    simp only [hfile, if_pos hkeys, hn, c]
    rfl
  refine ⟨u, n, hok, hn, rfl, ?_, Function.update_self .., fun q hq hqne => ?_⟩
  · exact (same_markDirty _ _).numPages.trans hsame'.numPages
  · exact page_setNode_ne n (lt_of_lt_of_le hroot.lt hfits) hq hqne

/-- A full root forgets the right half. -/
theorem insertIntoParent_full {seps kids : List ℕ} (hroot : t.Root seps kids)
    (hfits : t.numPages ≤ mappedPages) (hpid : pid ∈ kids) (hne : pid ≠ t.rootPid) (x right : ℕ)
    (hfull : seps.length = bptOrder) :
    ∃ u, t.insertIntoParent pid x right = .ok u ∧ Same t u := by
  have hkeys : ¬ (t.page t.rootPid).numKeys < bptOrder := by rw [hroot.numKeys_eq]; omega
  have hsame := same_getPage t t.rootPid
  let c := (t.getPage t.rootPid).2
  have hnoPage : t.rootPid ≠ noPage := by
    have := hroot.lt
    simp only [mappedPages] at hfits
    simp only [noPage]
    omega
  refine ⟨(c.getPage t.rootPid).2, ?_, hsame.trans (same_getPage c t.rootPid)⟩
  have hlt : t.rootPid < c.numPages := hsame.numPages ▸ hroot.lt
  have hmap : mapped (some (pageOffset t.rootPid)) = .ok (pageOffset t.rootPid) :=
    mapped_of_lt (lt_of_lt_of_le hroot.lt hfits)
  have hfile : (c.getPage t.rootPid).2.file (pageOffset t.rootPid) = t.page t.rootPid := rfl
  simp only [insertIntoParent, if_neg hne, findParentFrom_root hroot hfits hpid x _,
    if_neg hnoPage, getPage_of_lt hlt, hmap, Bind.bind, Except.bind, Pure.pure, Except.pure, c]
  simp only [hfile, if_neg hkeys, c]

end FlexQL.BPTree
