import FlexQL.Index.TreeInsert

/-!
# The invariant is preserved

Each of the three ways in which an insertion can go keeps the invariant, and in each of them the
entries along the chain are the old ones and the new one.
-/

namespace FlexQL.BPTree

open FencedLeaves ListSegment

/-- The entries of the given leaves, in order. -/
def stored (t : BPTree) (pids : List ℕ) : List (ℕ × ℕ) := pids.flatMap fun pid => (t.page pid).pairs

theorem stored_append (t : BPTree) (a b : List ℕ) : t.stored (a ++ b) = t.stored a ++ t.stored b :=
  List.flatMap_append

theorem stored_cons (t : BPTree) (pid : ℕ) (a : List ℕ) :
    t.stored (pid :: a) = (t.page pid).pairs ++ t.stored a := List.flatMap_cons

theorem stored_congr {t u : BPTree} {pids : List ℕ} (h : ∀ q ∈ pids, u.page q = t.page q) :
    u.stored pids = t.stored pids := by
  unfold stored
  induction pids with
  | nil => rfl
  | cons q pids ih =>
    rw [List.flatMap_cons, List.flatMap_cons, h q List.mem_cons_self,
      ih fun r hr => h r (List.mem_cons_of_mem _ hr)]

variable {t u : BPTree} {chain seps kids : List ℕ} {pid key val : ℕ}

/-- Replacing the entries of one leaf by these entries and one more. -/
theorem stored_perm_of_leaf {l r : List ℕ} {p : ℕ × ℕ} (hnodup : (l ++ pid :: r).Nodup)
    (hother : ∀ q ∈ l ++ pid :: r, q ≠ pid → u.page q = t.page q)
    (hperm : (u.page pid).pairs.Perm (p :: (t.page pid).pairs)) :
    (u.stored (l ++ pid :: r)).Perm (p :: t.stored (l ++ pid :: r)) := by
  rw [List.nodup_middle, List.nodup_cons, List.mem_append, not_or] at hnodup
  have hl : u.stored l = t.stored l := stored_congr fun q hq =>
    hother q (by simp [hq]) fun h => hnodup.1.1 (h ▸ hq)
  have hr : u.stored r = t.stored r := stored_congr fun q hq =>
    hother q (by simp [hq]) fun h => hnodup.1.2 (h ▸ hq)
  rw [stored_append, stored_append, stored_cons, stored_cons, hl, hr]
  refine (List.Perm.append_left _ (hperm.append_right _)).trans ?_
  rw [List.cons_append]
  exact List.perm_middle

/-- Splitting one leaf into two neighbours. -/
theorem stored_perm_of_split {l r : List ℕ} {p : ℕ × ℕ} {new : ℕ} {entries : List (ℕ × ℕ)} {n : ℕ}
    (hnodup : (l ++ pid :: r).Nodup)
    (hother : ∀ q ∈ l ++ pid :: r, q ≠ pid → u.page q = t.page q)
    (hperm : entries.Perm (p :: (t.page pid).pairs))
    (hleft : (u.page pid).pairs = entries.take n) (hright : (u.page new).pairs = entries.drop n) :
    (u.stored (l ++ pid :: new :: r)).Perm (p :: t.stored (l ++ pid :: r)) := by
  rw [List.nodup_middle, List.nodup_cons, List.mem_append, not_or] at hnodup
  have hl : u.stored l = t.stored l := stored_congr fun q hq =>
    hother q (by simp [hq]) fun h => hnodup.1.1 (h ▸ hq)
  have hr : u.stored r = t.stored r := stored_congr fun q hq =>
    hother q (by simp [hq]) fun h => hnodup.1.2 (h ▸ hq)
  rw [stored_append, stored_append, stored_cons, stored_cons, stored_cons, hl, hr, hleft, hright,
    ← List.append_assoc (entries.take n), List.take_append_drop]
  refine (List.Perm.append_left _ (hperm.append_right _)).trans ?_
  rw [List.cons_append]
  exact List.perm_middle

/-! ## The chain -/

theorem SplitLeaf.left_numKeys (hs : SplitLeaf t u pid key val)
    (hfull : (t.page pid).numKeys = bptOrder) : (u.page pid).numKeys = half := by
  rw [← BPTNode.pairs_length, hs.left_pairs, List.length_take, splitEntries_length key val hfull]
  decide

theorem SplitLeaf.right_numKeys (hs : SplitLeaf t u pid key val)
    (hfull : (t.page pid).numKeys = bptOrder) : (u.page t.numPages).numKeys = half + 1 := by
  rw [← BPTNode.pairs_length, hs.right_pairs, List.length_drop, splitEntries_length key val hfull]
  decide

/-- The chain does not depend on pages outside it, as long as the set of leaf pages is the same. -/
theorem Chained.congr (h : Chained t chain) (hfits : u.numPages ≤ mappedPages)
    (hpage : ∀ q ∈ chain, u.page q = t.page q)
    (hleaf : ∀ q, q < u.numPages ∧ (u.page q).type = .leaf ↔
      q < t.numPages ∧ (t.page q).type = .leaf) : Chained u chain where
  fits := hfits
  chain_head := h.chain_head
  nodup := h.nodup
  seg := h.seg.congr fun q hq => by rw [hpage q hq]
  mem_iff := fun q => (h.mem_iff q).trans (hleaf q).symm
  size_le := fun q hq => by rw [hpage q hq]; exact h.size_le q hq

/-- The chain behind the split of a leaf. -/
theorem Chained.split {l r : List ℕ} (h : Chained t (l ++ pid :: r))
    (hs : SplitLeaf t u pid key val) (hfits : t.numPages < mappedPages)
    (hfull : (t.page pid).numKeys = bptOrder) : Chained u (l ++ pid :: t.numPages :: r) := by
  have hlt : ∀ q ∈ l ++ pid :: r, q < t.numPages := fun q hq => ((h.mem_iff q).mp hq).1
  have hpid : pid ∈ l ++ pid :: r := by simp
  have hnew : t.numPages ∉ l ++ pid :: r := fun hmem => lt_irrefl _ (hlt _ hmem)
  have hother : ∀ q < t.numPages, q ≠ pid → u.page q = t.page q := fun q hq hne =>
    hs.other q (by omega) hne (by omega)
  refine ⟨by have := hs.numPages; omega, ?_, ?_, ?_, ?_, ?_⟩
  · have := h.chain_head
    cases l <;> simpa using this
  · have hperm : (l ++ pid :: t.numPages :: r).Perm (t.numPages :: (l ++ pid :: r)) := by
      rw [List.append_cons, List.append_cons l pid r]
      exact List.perm_middle
    rw [hperm.nodup_iff, List.nodup_cons]
    exact ⟨hnew, h.nodup⟩
  · refine h.seg.splice h.nodup (fun q hq hne => ?_) hs.left_next hs.right_next
    rw [hother q (hlt q hq) hne]
  · intro q
    have htype : q < t.numPages → (u.page q).type = (t.page q).type := by
      intro hq
      by_cases hqp : q = pid
      · subst hqp
        exact hs.left_type
      · rw [hother q hq hqp]
    have hmem : q ∈ l ++ pid :: t.numPages :: r ↔ q = t.numPages ∨ q ∈ l ++ pid :: r := by
      simp only [List.mem_append, List.mem_cons]
      tauto
    rw [hmem, hs.numPages, h.mem_iff q]
    by_cases hq : q = t.numPages
    · subst hq
      simp [hs.right_type]
    · constructor
      · rintro (hq' | ⟨hq', hleaf⟩)
        · exact absurd hq' hq
        · exact ⟨by omega, (htype hq').trans hleaf⟩
      · rintro ⟨hq', hleaf⟩
        exact Or.inr ⟨by omega, (htype (by omega)).symm.trans hleaf⟩
  · intro q hq
    by_cases hqp : q = pid
    · subst hqp
      rw [hs.left_numKeys hfull]
      decide
    by_cases hqn : q = t.numPages
    · subst hqn
      rw [hs.right_numKeys hfull]
      decide
    have hq' : q ∈ l ++ pid :: r := by
      simp only [List.mem_append, List.mem_cons] at hq ⊢
      tauto
    rw [hother q (hlt q hq') hqp]
    exact h.size_le q hq'

/-! ## The invariant in terms of the pages -/

theorem Root.congr (h : t.Root seps kids) (hroot : u.rootPid = t.rootPid)
    (hnum : t.numPages ≤ u.numPages) (hpage : u.page t.rootPid = t.page t.rootPid)
    (hhalf : ∀ q ∈ kids, half ≤ (u.page q).numKeys) : u.Root seps kids where
  lt := by have := h.lt; omega
  type_eq := by rw [hroot, hpage, h.type_eq]
  seps_eq := by rw [hroot, hpage, h.seps_eq]
  kids_eq := by rw [hroot, hpage, h.kids_eq]
  length_le := h.length_le
  nonempty := h.nonempty
  half_le := hhalf

/-- The invariant does not see the cache. -/
theorem Inv.same (h : Inv t chain seps kids) (hs : Same t u) : Inv u chain seps kids where
  toChained := by
    refine h.toChained.congr (hs.numPages ▸ h.fits) (fun q _ => hs.page q) fun q => ?_
    rw [hs.numPages, hs.page]
  toLinked := {
    sublist := h.sublist
    kids_head := h.kids_head
    fenced := by simpa only [hs.page] using h.fenced
    root := h.root.imp (fun hr => ⟨hr.1, hs.rootPid.trans hr.2⟩) fun hr =>
      hr.congr hs.rootPid hs.numPages.ge (hs.page _) fun q hq => by
        rw [hs.page]
        exact hr.half_le q hq }
  numPages_eq := hs.numPages.trans h.numPages_eq

/-- The root of a tree with an internal root is not a leaf of it. -/
theorem Root.ne_of_leaf (hr : t.Root seps kids) (hleaf : (t.page pid).type = .leaf) :
    pid ≠ t.rootPid := by
  rintro rfl
  rw [hr.type_eq] at hleaf
  cases hleaf

theorem Place.map_eq {α : Type} (p : Place seps kids key) (f : ℕ → α) :
    kids.map f = p.kidsLeft.map f ++ f p.pid :: p.kidsRight.map f :=
  (congrArg (List.map f) p.kids_eq).trans (by rw [List.map_append, List.map_cons])

theorem Place.mem (p : Place seps kids key) : p.pid ∈ kids := by
  have : p.pid ∈ p.kidsLeft ++ p.pid :: p.kidsRight := by simp
  rwa [← p.kids_eq] at this

theorem Place.mem_left (p : Place seps kids key) {q : ℕ} (hq : q ∈ p.kidsLeft) : q ∈ kids := by
  have : q ∈ p.kidsLeft ++ p.pid :: p.kidsRight := by simp [hq]
  rwa [← p.kids_eq] at this

theorem Place.mem_right (p : Place seps kids key) {q : ℕ} (hq : q ∈ p.kidsRight) : q ∈ kids := by
  have : q ∈ p.kidsLeft ++ p.pid :: p.kidsRight := by simp [hq]
  rwa [← p.kids_eq] at this

theorem Place.nodup (p : Place seps kids key) (h : kids.Nodup) :
    p.pid ∉ p.kidsLeft ∧ p.pid ∉ p.kidsRight := by
  have : (p.kidsLeft ++ p.pid :: p.kidsRight).Nodup := p.kids_eq ▸ h
  rw [List.nodup_middle, List.nodup_cons, List.mem_append, not_or] at this
  exact this.1

/-- The entries at the place of a key, within the entries of all children. -/
theorem Inv.fenced_place (h : Inv t chain seps kids) (p : Place seps kids key) :
    Fenced half (p.sepsLeft ++ p.sepsRight)
      (p.kidsLeft.map (fun q => (t.page q).pairs) ++
        (t.page p.pid).pairs :: p.kidsRight.map fun q => (t.page q).pairs) := by
  rw [← p.seps_eq, ← p.map_eq fun q => (t.page q).pairs]
  exact h.fenced

/-- The entries of the other children, when only the page of the place changes. -/
theorem Inv.map_place (h : Inv t chain seps kids) (p : Place seps kids key)
    (hother : ∀ q ∈ kids, q ≠ p.pid → u.page q = t.page q) :
    p.kidsLeft.map (fun q => (u.page q).pairs) = p.kidsLeft.map (fun q => (t.page q).pairs) ∧
      p.kidsRight.map (fun q => (u.page q).pairs) =
        p.kidsRight.map fun q => (t.page q).pairs := by
  obtain ⟨hl, hr⟩ := p.nodup (h.nodup.sublist h.sublist)
  constructor
  · refine List.map_congr_left fun q hq => ?_
    rw [hother q (p.mem_left hq) fun heq => hl (heq ▸ hq)]
  · refine List.map_congr_left fun q hq => ?_
    rw [hother q (p.mem_right hq) fun heq => hr (heq ▸ hq)]

/-- `insert` descends to the place of the key. -/
theorem Inv.insert_eq (h : Inv t chain seps kids) {pid : ℕ} (val : ℕ)
    (hpid : kids[route seps key]? = some pid) :
    ∃ t', Same t t' ∧ t.insert key val = t'.insertIntoLeaf pid key val := by
  obtain ⟨t', hfind, hsame⟩ := h.findLeaf_eq hpid
  exact ⟨t', hsame, by simp only [BPTree.insert, hfind, Bind.bind, Except.bind]⟩

/-! ## A leaf with room -/

theorem Inv.insert_room (h : Inv t chain seps kids) (p : Place seps kids key) (val : ℕ)
    (hp : kids[route seps key]? = some p.pid) (hroom : (t.page p.pid).numKeys < bptOrder) :
    ∃ u, t.insert key val = .ok u ∧ Inv u chain seps kids ∧
      (u.stored chain).Perm ((key, val) :: t.stored chain) ∧
      (u.page p.pid).numKeys = (t.page p.pid).numKeys + 1 ∧
      ∀ q ∈ chain, (t.page q).numKeys ≤ (u.page q).numKeys := by
  obtain ⟨hlt, hleaf, -⟩ := h.mem_kids p.mem
  have hfits := h.fits
  obtain ⟨t', hsame, heq⟩ := h.insert_eq val hp
  obtain ⟨u, n, hok, hn, hroot, hnum, hpage, hother⟩ :=
    insertIntoLeaf_room (hsame.numPages ▸ hlt) (hsame.numPages ▸ hfits) key val
      (by rwa [hsame.page])
  obtain ⟨n', j, hn', hfree, hpairs, htype, hnext, hkeys⟩ := BPTNode.insertPair_spec key val hroom
  rw [hsame.page, hn'] at hn
  obtain rfl : n' = n := Except.ok.inj hn
  rw [hsame.numPages] at hnum
  rw [hsame.rootPid] at hroot
  replace hother : ∀ q < t.numPages, q ≠ p.pid → u.page q = t.page q := fun q hq hne =>
    (hother q (by omega) hne).trans (hsame.page q)
  have hchain : ∀ q ∈ chain, q < t.numPages := fun q hq => ((h.mem_iff q).mp hq).1
  have hperm : (u.page p.pid).pairs.Perm ((key, val) :: (t.page p.pid).pairs) := by
    rw [hpage, hpairs]
    exact List.perm_middle.trans (by rw [List.take_append_drop])
  have hsorted : SortedKeys (u.page p.pid).pairs := by
    rw [hpage, hpairs]
    exact hfree.sorted_insert ((h.fenced_place p).at_place
      (by simpa using p.length_eq) p.left_le).1.sorted_of_place val
  have hnumKeys : ∀ q ∈ chain, (t.page q).numKeys ≤ (u.page q).numKeys := by
    intro q hq
    by_cases hne : q = p.pid
    · rw [hne, hpage, hkeys]
      omega
    · rw [hother q (hchain q hq) hne]
  refine ⟨u, heq.trans hok, ⟨⟨hnum ▸ hfits, h.chain_head, h.nodup, ?_, ?_, ?_⟩,
    ⟨h.sublist, h.kids_head, ?_, ?_⟩, hnum.trans h.numPages_eq⟩, ?_, ?_, hnumKeys⟩
  · refine h.seg.congr fun q hq => ?_
    by_cases hne : q = p.pid
    · rw [hne, hpage, hnext]
    · rw [hother q (hchain q hq) hne]
  · intro q
    rw [h.mem_iff q, hnum]
    refine and_congr_right fun hq => ?_
    by_cases hne : q = p.pid
    · rw [hne, hpage, htype]
    · rw [hother q hq hne]
  · intro q hq
    by_cases hne : q = p.pid
    · rw [hne, hpage, hkeys]
      omega
    · rw [hother q (hchain q hq) hne]
      exact h.size_le q hq
  · obtain ⟨hl, hr⟩ := h.map_place p fun q hq hne => hother q (h.mem_kids hq).1 hne
    rw [p.map_eq fun q => (u.page q).pairs, hl, hr]
    have := (h.fenced_place p).insert (by simpa using p.length_eq) p.left_le p.lt_right hsorted hperm
    rwa [← p.seps_eq] at this
  · refine h.root.imp (fun hr => ⟨hr.1, hroot.trans hr.2⟩) fun hr => ?_
    refine hr.congr hroot hnum.ge (hother _ hr.lt (hr.ne_of_leaf hleaf).symm) fun q hq => ?_
    exact (hr.half_le q hq).trans (hnumKeys q (h.sublist.subset hq))
  · obtain ⟨l, r, hlr⟩ := List.append_of_mem (h.sublist.subset p.mem)
    rw [hlr]
    refine stored_perm_of_leaf (hlr ▸ h.nodup) (fun q hq hne => ?_) hperm
    exact hother q (hchain q (hlr ▸ hq)) hne
  · rw [hpage, hkeys]

end FlexQL.BPTree
