import FlexQL.Index.NodeOps
import FlexQL.Lib.ListSegment

/-!
# The representation invariant of the B+ tree

A tree is a single leaf, or one internal root over leaves. All leaves that were ever created form
one chain through `next_leaf`, starting at page 0. The leaves that the root still knows are a
sublist of that chain, because a leaf that is split off while the root is full is never linked.
The linked leaves are fenced by the separators of the root. The cache is not part of the picture:
it does not influence what is read from an allocated page.
-/

namespace FlexQL.BPTree

open FencedLeaves ListSegment

/-- Half of `BPT_ORDER`: the number of entries that stay in a leaf that is split. -/
def half : ℕ := 125

def numPages (t : BPTree) : ℕ := t.cacheManager.numPages

/-- The node on a page. -/
def page (t : BPTree) (pid : ℕ) : BPTNode := t.file (pageOffset pid)

/-- All leaves ever created, in the order of the `next_leaf` chain. -/
structure Chained (t : BPTree) (chain : List ℕ) : Prop where
  fits : t.numPages ≤ mappedPages
  chain_head : chain.head? = some 0
  nodup : chain.Nodup
  seg : Seg (fun pid => (t.page pid).nextLeaf) chain noPage
  mem_iff : ∀ pid, pid ∈ chain ↔ pid < t.numPages ∧ (t.page pid).type = .leaf
  size_le : ∀ pid ∈ chain, (t.page pid).numKeys ≤ bptOrder

/-- The root page holds the given separators and children. -/
structure Root (t : BPTree) (seps kids : List ℕ) : Prop where
  lt : t.rootPid < t.numPages
  type_eq : (t.page t.rootPid).type = .internal
  seps_eq : (t.page t.rootPid).seps = seps
  kids_eq : (t.page t.rootPid).kids = kids
  length_le : seps.length ≤ bptOrder
  nonempty : seps ≠ []
  /-- Below an internal root every leaf is at least half full. -/
  half_le : ∀ pid ∈ kids, half ≤ (t.page pid).numKeys

/-- The leaves that can be reached from the root. -/
structure Linked (t : BPTree) (chain seps kids : List ℕ) : Prop where
  sublist : kids.Sublist chain
  kids_head : kids.head? = some 0
  fenced : Fenced half seps (kids.map fun pid => (t.page pid).pairs)
  root : seps = [] ∧ t.rootPid = 0 ∨ t.Root seps kids

structure Inv (t : BPTree) (chain seps kids : List ℕ) : Prop extends
  Chained t chain, Linked t chain seps kids where
  /-- Besides the leaves there is at most the root. -/
  numPages_eq : t.numPages = chain.length + min seps.length 1

/-- The tree has not changed, except perhaps for its cache. -/
structure Same (t t' : BPTree) : Prop where
  file : t'.file = t.file
  rootPid : t'.rootPid = t.rootPid
  numPages : t'.numPages = t.numPages

/-! ## Elementary operations -/

theorem Same.trans {t t' t'' : BPTree} (h : Same t t') (h' : Same t' t'') : Same t t'' :=
  ⟨h'.file.trans h.file, h'.rootPid.trans h.rootPid, h'.numPages.trans h.numPages⟩

theorem Same.page {t t' : BPTree} (h : Same t t') (pid : ℕ) : t'.page pid = t.page pid := by
  rw [BPTree.page, h.file, BPTree.page]

theorem same_getPage (t : BPTree) (pid : ℕ) : Same t (t.getPage pid).2 :=
  ⟨rfl, rfl, by simp [BPTree.numPages, getPage]⟩

theorem same_markDirty (t : BPTree) (pid : ℕ) : Same t (t.markDirty pid) :=
  ⟨rfl, rfl, by simp [BPTree.numPages, markDirty]⟩

theorem getPage_of_lt {t : BPTree} {pid : ℕ} (h : pid < t.numPages) :
    (t.getPage pid).1 = some (pageOffset pid) := CacheManager.getPage_of_lt h

theorem page_setNode_same (t : BPTree) (pid : ℕ) (n : BPTNode) :
    (t.setNode (pageOffset pid) n).page pid = n := by simp [page, setNode]

theorem page_setNode_ne {t : BPTree} {pid q : ℕ} (n : BPTNode) (hpid : pid < mappedPages)
    (hq : q < mappedPages) (hne : q ≠ pid) : (t.setNode (pageOffset pid) n).page q = t.page q := by
  have : pageOffset q ≠ pageOffset pid := fun h => hne (pageOffset_inj hq hpid h)
  simp [page, setNode, Function.update_of_ne this]

/-- A new node takes the next page, as long as that page is inside the mapping. -/
theorem createNode_of_lt {t : BPTree} (type : BPTNodeType) (h : t.numPages < mappedPages) :
    ∃ t', t.createNode type = .ok (t.numPages, t') ∧ t'.rootPid = t.rootPid ∧
      t'.numPages = t.numPages + 1 ∧
      t'.file = Function.update t.file (pageOffset t.numPages) (.init type) := by
  have hnum : t.cacheManager.allocatePage.2.numPages = t.numPages + 1 :=
    CacheManager.allocatePage_numPages (by simp only [numPages, mappedPages] at h; omega)
  let u : BPTree := { t with cacheManager := t.cacheManager.allocatePage.2 }
  have hu : u.numPages = t.numPages + 1 := hnum
  have hget : (u.getPage t.numPages).1 = some (pageOffset t.numPages) := getPage_of_lt (by omega)
  let v := ((u.getPage t.numPages).2.setNode (pageOffset t.numPages) (.init type)).markDirty
    t.numPages
  have hok : t.createNode type = .ok (t.numPages, v) := by
    have hpid : t.cacheManager.allocatePage.1 = t.numPages := rfl
    have hget' : (getPage { t with cacheManager := t.cacheManager.allocatePage.2 } t.numPages).1 =
        some (pageOffset t.numPages) := hget
    simp only [createNode, hpid, hget', mapped_of_lt h, Bind.bind, Except.bind, Pure.pure, Except.pure]
    rfl
  refine ⟨v, hok, rfl, ?_, rfl⟩
  rw [(same_markDirty _ _).numPages]
  exact (same_getPage u t.numPages).numPages.trans hnum

/-- The first page past the mapping cannot be written. -/
theorem createNode_of_eq {t : BPTree} (type : BPTNodeType) (h : t.numPages = mappedPages) :
    t.createNode type = .error .unmapped := by
  have hnum : t.cacheManager.allocatePage.2.numPages = t.numPages + 1 :=
    CacheManager.allocatePage_numPages (by rw [← numPages, h]; decide)
  let u : BPTree := { t with cacheManager := t.cacheManager.allocatePage.2 }
  have hu : u.numPages = t.numPages + 1 := hnum
  have hget : (u.getPage mappedPages).1 = some (pageOffset mappedPages) :=
    getPage_of_lt (by omega)
  have hpid : t.cacheManager.allocatePage.1 = mappedPages := h
  have hget' : (getPage { t with cacheManager := t.cacheManager.allocatePage.2 } mappedPages).1 =
      some (pageOffset mappedPages) := hget
  simp only [createNode, hpid, hget', mapped_end, Bind.bind, Except.bind]

/-! ## The place of a key -/

/-- The leaf `pid` to which the separators lead a key, with the children and the separators on
both sides of it. -/
structure Place (seps kids : List ℕ) (key : ℕ) where
  sepsLeft : List ℕ
  sepsRight : List ℕ
  kidsLeft : List ℕ
  pid : ℕ
  kidsRight : List ℕ
  seps_eq : seps = sepsLeft ++ sepsRight
  kids_eq : kids = kidsLeft ++ pid :: kidsRight
  length_eq : sepsLeft.length = kidsLeft.length
  left_le : ∀ s ∈ sepsLeft, s ≤ key
  lt_right : ∀ s ∈ sepsRight.head?, key < s

/-- The place is the child with the number that the descent computes. -/
theorem exists_place {seps kids : List ℕ} (key : ℕ) (hlen : kids.length = seps.length + 1) :
    ∃ p : Place seps kids key, kids[route seps key]? = some p.pid := by
  have hroute : route seps key < kids.length := by
    have : route seps key ≤ seps.length := (List.takeWhile_sublist _).length_le
    omega
  refine ⟨{
    sepsLeft := seps.takeWhile (· ≤ key)
    sepsRight := seps.dropWhile (· ≤ key)
    kidsLeft := kids.take (route seps key)
    pid := kids[route seps key]
    kidsRight := kids.drop (route seps key + 1)
    seps_eq := List.takeWhile_append_dropWhile.symm
    kids_eq := by rw [← List.drop_eq_getElem_cons hroute, List.take_append_drop]
    length_eq := by simp only [List.length_take]; rw [Nat.min_eq_left hroute.le]; rfl
    left_le := fun s hs => by simpa using List.mem_takeWhile_imp hs
    lt_right := fun s hs => by
      have := List.head?_dropWhile_not (· ≤ key) seps
      rw [Option.mem_def.mp hs] at this
      simpa using this }, List.getElem?_eq_getElem hroute⟩

namespace Inv

variable {t : BPTree} {chain seps kids : List ℕ}

theorem kids_length (h : Inv t chain seps kids) : kids.length = seps.length + 1 := by
  simpa using h.fenced.length_eq

theorem mem_kids (h : Inv t chain seps kids) {pid : ℕ} (hpid : pid ∈ kids) :
    pid < t.numPages ∧ (t.page pid).type = .leaf ∧ (t.page pid).numKeys ≤ bptOrder :=
  have hmem := h.sublist.subset hpid
  ⟨((h.mem_iff pid).mp hmem).1, ((h.mem_iff pid).mp hmem).2, h.size_le pid hmem⟩

theorem zero_lt (h : Inv t chain seps kids) : 0 < t.numPages :=
  (h.mem_kids (List.mem_of_mem_head? h.kids_head)).1

theorem kids_eq_of_nil (h : Inv t chain [] kids) : kids = [0] := by
  obtain ⟨a, rfl⟩ := List.length_eq_one_iff.mp h.kids_length
  simpa using h.kids_head

end Inv

/-! ## The descent -/

/-- Reading a page that is allocated and mapped. -/
theorem read_page {t : BPTree} {pid : ℕ} (hpid : pid < t.numPages) (hfits : t.numPages ≤ mappedPages) :
    mapped (t.getPage pid).1 = .ok (pageOffset pid) := by
  rw [getPage_of_lt hpid, mapped_of_lt (by omega)]

section Descent

variable {t : BPTree} {pid fuel : ℕ} (key : ℕ)

theorem findLeafFrom_leaf (hpid : pid < t.numPages) (hfits : t.numPages ≤ mappedPages)
    (hleaf : (t.page pid).type = .leaf) :
    t.findLeafFrom key (fuel + 1) pid = .ok (pid, (t.getPage pid).2) := by
  have hmap : mapped (some (pageOffset pid)) = .ok (pageOffset pid) := mapped_of_lt (by omega)
  have hnode : ((t.getPage pid).2.file (pageOffset pid)).type = .leaf := hleaf
  simp only [findLeafFrom, getPage_of_lt hpid, hmap, hnode, if_true, Bind.bind, Except.bind,
    Pure.pure, Except.pure]

theorem findLeafFrom_internal (hpid : pid < t.numPages) (hfits : t.numPages ≤ mappedPages)
    (htype : (t.page pid).type = .internal) (hkeys : (t.page pid).numKeys ≤ bptOrder) :
    t.findLeafFrom key (fuel + 1) pid = (t.getPage pid).2.findLeafFrom key fuel
      ((t.page pid).children (route (t.page pid).seps key)) := by
  have hmap : mapped (some (pageOffset pid)) = .ok (pageOffset pid) := mapped_of_lt (by omega)
  have hfile : (t.getPage pid).2.file (pageOffset pid) = t.page pid := rfl
  simp only [findLeafFrom, getPage_of_lt hpid, hmap, hfile, htype, reduceCtorEq, if_false,
    BPTNode.childSlot_eq key hkeys, BPTNode.child_route key hkeys, Bind.bind, Except.bind]

theorem searchFrom_leaf (hpid : pid < t.numPages) (hfits : t.numPages ≤ mappedPages)
    (hleaf : (t.page pid).type = .leaf) (hkeys : (t.page pid).numKeys ≤ bptOrder) :
    t.searchFrom key (fuel + 1) pid =
      .ok (((t.page pid).pairs.find? (fun p => p.1 = key)).map Prod.snd, (t.getPage pid).2) := by
  have hmap : mapped (some (pageOffset pid)) = .ok (pageOffset pid) := mapped_of_lt (by omega)
  have hfile : (t.getPage pid).2.file (pageOffset pid) = t.page pid := rfl
  simp only [searchFrom, getPage_of_lt hpid, hmap, hfile, hleaf, if_true,
    BPTNode.lookup_eq key hkeys, Bind.bind, Except.bind, Pure.pure, Except.pure]

theorem searchFrom_internal (hpid : pid < t.numPages) (hfits : t.numPages ≤ mappedPages)
    (htype : (t.page pid).type = .internal) (hkeys : (t.page pid).numKeys ≤ bptOrder) :
    t.searchFrom key (fuel + 1) pid = (t.getPage pid).2.searchFrom key fuel
      ((t.page pid).children (route (t.page pid).seps key)) := by
  have hmap : mapped (some (pageOffset pid)) = .ok (pageOffset pid) := mapped_of_lt (by omega)
  have hfile : (t.getPage pid).2.file (pageOffset pid) = t.page pid := rfl
  simp only [searchFrom, getPage_of_lt hpid, hmap, hfile, htype, reduceCtorEq, if_false,
    BPTNode.childSlot_eq key hkeys, BPTNode.child_route key hkeys, Bind.bind, Except.bind]

end Descent

/-- Where the descent goes from an internal root. -/
theorem Root.child_eq {t : BPTree} {seps kids : List ℕ} (hroot : t.Root seps kids) {key pid : ℕ}
    (hpid : kids[route seps key]? = some pid) :
    (t.page t.rootPid).children (route (t.page t.rootPid).seps key) = pid := by
  rw [hroot.seps_eq]
  rw [← hroot.kids_eq] at hpid
  have hlt : route seps key < (t.page t.rootPid).numKeys + 1 := by
    obtain ⟨h, -⟩ := List.getElem?_eq_some_iff.mp hpid
    simpa using h
  rw [BPTNode.kids_getElem? hlt] at hpid
  exact Option.some.inj hpid

theorem Root.numKeys_eq {t : BPTree} {seps kids : List ℕ} (hroot : t.Root seps kids) :
    (t.page t.rootPid).numKeys = seps.length := by
  rw [← hroot.seps_eq, BPTNode.seps_length]

/-- `find_leaf` reaches the place of the key. -/
theorem Inv.findLeaf_eq {t : BPTree} {chain seps kids : List ℕ} (h : Inv t chain seps kids)
    {key pid : ℕ} (hpid : kids[route seps key]? = some pid) :
    ∃ t', t.findLeaf key = .ok (pid, t') ∧ Same t t' := by
  obtain ⟨hlt, hleaf, -⟩ := h.mem_kids (List.mem_of_getElem? hpid)
  rcases h.root with ⟨rfl, hzero⟩ | hroot
  · obtain rfl : pid = 0 := by simpa [h.kids_eq_of_nil, route] using hpid.symm
    rw [findLeaf, hzero]
    exact ⟨_, findLeafFrom_leaf key hlt h.fits hleaf, same_getPage t 0⟩
  · obtain ⟨fuel, hfuel⟩ := Nat.exists_eq_add_of_lt h.zero_lt
    have hkeys : (t.page t.rootPid).numKeys ≤ bptOrder := hroot.numKeys_eq ▸ hroot.length_le
    have hsame := same_getPage t t.rootPid
    rw [findLeaf, findLeafFrom_internal key hroot.lt h.fits hroot.type_eq hkeys,
      hroot.child_eq hpid, ← numPages, hfuel]
    refine ⟨_, findLeafFrom_leaf key ?_ ?_ ?_, hsame.trans (same_getPage _ pid)⟩
    · rwa [hsame.numPages]
    · rw [hsame.numPages]; exact h.fits
    · rwa [hsame.page]

/-- `search` looks for the key in the leaf at its place. -/
theorem Inv.search_eq {t : BPTree} {chain seps kids : List ℕ} (h : Inv t chain seps kids)
    {key pid : ℕ} (hpid : kids[route seps key]? = some pid) :
    ∃ t', t.search key =
        .ok (((t.page pid).pairs.find? (fun p => p.1 = key)).map Prod.snd, t') ∧ Same t t' := by
  obtain ⟨hlt, hleaf, hkeys⟩ := h.mem_kids (List.mem_of_getElem? hpid)
  rcases h.root with ⟨rfl, hzero⟩ | hroot
  · obtain rfl : pid = 0 := by simpa [h.kids_eq_of_nil, route] using hpid.symm
    rw [search, hzero]
    exact ⟨_, searchFrom_leaf key hlt h.fits hleaf hkeys, same_getPage t 0⟩
  · obtain ⟨fuel, hfuel⟩ := Nat.exists_eq_add_of_lt h.zero_lt
    have hrootkeys : (t.page t.rootPid).numKeys ≤ bptOrder := hroot.numKeys_eq ▸ hroot.length_le
    have hsame := same_getPage t t.rootPid
    rw [search, searchFrom_internal key hroot.lt h.fits hroot.type_eq hrootkeys,
      hroot.child_eq hpid, ← numPages, hfuel]
    rw [← hsame.page pid] at hleaf hkeys ⊢
    refine ⟨_, searchFrom_leaf key ?_ ?_ hleaf hkeys, hsame.trans (same_getPage _ pid)⟩
    · rwa [hsame.numPages]
    · rw [hsame.numPages]; exact h.fits

end FlexQL.BPTree
