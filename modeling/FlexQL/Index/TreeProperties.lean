import FlexQL.Index.TreeRuns

/-!
# What the index promises

The leaf chain holds exactly the inserted pairs in every run. As long as no leaf is split under a
full root, the root knows all leaves, and then the tree satisfies its full representation invariant
and no insertion hides a key. A split under a full root does hide keys.
-/

namespace FlexQL.BPTree

open FencedLeaves ListSegment Runs

variable {t u v : BPTree} {chain seps kids : List ℕ} {key val : ℕ}

/-- One call of `insert` in a run of insertions. -/
def insertStep (t : BPTree) (e : ℕ × ℕ) : Except Fault BPTree := t.insert e.1 e.2

/-! ## The leaf chain -/

theorem Chained.walk_eq (h : Chained t chain) (hlen : chain.length ≤ t.numPages) :
    walk (fun pid => (t.page pid).nextLeaf) noPage t.numPages 0 = some chain := by
  have hstop : noPage ∉ chain := fun hmem => by
    have := ((h.mem_iff noPage).mp hmem).1
    have := h.fits
    simp only [noPage, mappedPages] at *
    omega
  have hhead : chain.headD noPage = 0 := by simp [List.headD_eq_head?_getD, h.chain_head]
  simpa only [hhead] using h.seg.walk_eq hstop hlen

theorem Inv.walk_eq (h : Inv t chain seps kids) :
    walk (fun pid => (t.page pid).nextLeaf) noPage t.numPages 0 = some chain :=
  h.toChained.walk_eq (by have := h.numPages_eq; omega)

/-- A tree that holds the entries `es`, some of them perhaps in leaves that the root has lost. A
root that is a leaf has lost nothing. -/
def Holds (es : List (ℕ × ℕ)) (t : BPTree) : Prop :=
  ∃ chain seps kids, Inv t chain seps kids ∧ (t.stored chain).Perm es ∧ (seps = [] → kids = chain)

/-- A tree that holds the entries `es` and whose root knows all leaves. -/
def HoldsLinked (es : List (ℕ × ℕ)) (t : BPTree) : Prop :=
  ∃ chain seps, Inv t chain seps chain ∧ (t.stored chain).Perm es

theorem HoldsLinked.holds {es : List (ℕ × ℕ)} (h : HoldsLinked es t) : Holds es t :=
  let ⟨chain, seps, hinv, hperm⟩ := h
  ⟨chain, seps, chain, hinv, hperm, fun _ => rfl⟩

theorem init_holdsLinked (file : ℕ → BPTNode) : ∃ t, init file = .ok t ∧ HoldsLinked [] t :=
  let ⟨t, ht, hinv, hstored⟩ := init_inv file
  ⟨t, ht, [0], [], hinv, hstored ▸ List.Perm.nil⟩

theorem perm_concat_of_cons {α : Type} {a : α} {l l' es : List α} (hl : l.Perm (a :: l'))
    (hl' : l'.Perm es) : l.Perm (es ++ [a]) :=
  hl.trans ((hl'.cons a).trans (List.perm_append_singleton a es).symm)

theorem Holds.insert {es : List (ℕ × ℕ)} (h : Holds es t) (e : ℕ × ℕ) :
    (∃ u, insertStep t e = .ok u ∧ Holds (es ++ [e]) u) ∨
      ∃ f, insertStep t e = .error f ∧ f = .unmapped := by
  obtain ⟨chain, seps, kids, hinv, hperm, hlinked⟩ := h
  rcases hinv.insert_cases e.1 e.2 with ⟨-, herr⟩ |
      ⟨u, chain', seps', kids', hu, hinv', hperm', hseps, hkids, -⟩
  · exact Or.inr ⟨_, herr, rfl⟩
  · refine Or.inl ⟨u, hu, chain', seps', kids', hinv', perm_concat_of_cons hperm' hperm, ?_⟩
    intro hnil
    obtain rfl := hseps hnil
    exact hkids (hinv.not_splitsUnderFullRoot e.1) (hlinked rfl)

theorem HoldsLinked.insert {es : List (ℕ × ℕ)} (h : HoldsLinked es t) {e : ℕ × ℕ}
    (hn : ¬ SplitsUnderFullRoot t e.1) :
    ∃ u, insertStep t e = .ok u ∧ HoldsLinked (es ++ [e]) u := by
  obtain ⟨chain, seps, hinv, hperm⟩ := h
  obtain ⟨u, chain', seps', hu, hinv', hperm'⟩ := hinv.insert_complete e.2 hn
  exact ⟨u, hu, chain', seps', hinv', perm_concat_of_cons hperm' hperm⟩

/-- The first insertion into a new tree. -/
theorem init_insert (file : ℕ → BPTNode) (e : ℕ × ℕ) :
    ∃ t u, init file = .ok t ∧ insertStep t e = .ok u ∧ HoldsLinked [e] u := by
  obtain ⟨t, ht, hinv, hstored⟩ := init_inv file
  have h : HoldsLinked [] t := ⟨[0], [], hinv, hstored ▸ List.Perm.nil⟩
  obtain ⟨u, hu, hholds⟩ := h.insert (hinv.not_splitsUnderFullRoot e.1)
  exact ⟨t, u, ht, hu, hholds⟩

/-- A tree that holds the entries `es`, all of whose leaves are half full once the root is not a
leaf. -/
def HoldsDense (es : List (ℕ × ℕ)) (t : BPTree) : Prop :=
  ∃ chain seps kids, Inv t chain seps kids ∧ (t.stored chain).Perm es ∧ (seps = [] → kids = chain) ∧
    (seps ≠ [] → ∀ q ∈ chain, half ≤ (t.page q).numKeys)

theorem init_holdsDense (file : ℕ → BPTNode) : ∃ t, init file = .ok t ∧ HoldsDense [] t :=
  let ⟨t, ht, hinv, hstored⟩ := init_inv file
  ⟨t, ht, [0], [], [0], hinv, hstored ▸ List.Perm.nil, fun _ => rfl, fun hne => absurd rfl hne⟩

theorem half_mul_length_le (hhalf : ∀ q ∈ chain, half ≤ (t.page q).numKeys) :
    half * chain.length ≤ (t.stored chain).length := by
  induction chain with
  | nil => simp
  | cons q chain ih =>
    have hq := hhalf q List.mem_cons_self
    have hrest := ih fun q' hq' => hhalf q' (List.mem_cons_of_mem _ hq')
    simp only [stored, List.flatMap_cons, List.length_append, List.length_cons,
      BPTNode.pairs_length] at hrest ⊢
    rw [Nat.mul_succ]
    omega

/-- Half full leaves take few pages. -/
theorem HoldsDense.numPages_le {es : List (ℕ × ℕ)} (h : HoldsDense es t) :
    half * t.numPages ≤ es.length + half := by
  obtain ⟨chain, seps, kids, hinv, hperm, hlinked, hhalf⟩ := h
  have hnum := hinv.numPages_eq
  by_cases hseps : seps = []
  · have hlen := hinv.kids_length
    rw [hlinked hseps, hseps, List.length_nil] at hlen
    rw [hseps, List.length_nil] at hnum
    simp only [half] at *
    omega
  · have hle := half_mul_length_le (hhalf hseps)
    rw [hperm.length_eq] at hle
    have hpos := List.length_pos_iff.mpr hseps
    simp only [half] at *
    omega

/-- An insertion into such a tree fails only when millions of entries fill the mapping. -/
theorem HoldsDense.insert {es : List (ℕ × ℕ)} (h : HoldsDense es t) (e : ℕ × ℕ) :
    (half * mappedPages ≤ es.length + 2 * half ∧ insertStep t e = .error .unmapped) ∨
      ∃ u, insertStep t e = .ok u ∧ HoldsDense (es ++ [e]) u := by
  have hle := h.numPages_le
  obtain ⟨chain, seps, kids, hinv, hperm, hlinked, hhalf⟩ := h
  rcases hinv.insert_cases e.1 e.2 with ⟨hnum, herr⟩ |
      ⟨u, chain', seps', kids', hu, hinv', hperm', hseps, hkids, hhalf'⟩
  · refine Or.inl ⟨?_, herr⟩
    simp only [half] at *
    omega
  · refine Or.inr ⟨u, hu, chain', seps', kids', hinv', perm_concat_of_cons hperm' hperm, ?_,
      hhalf' hlinked hhalf⟩
    intro hnil
    obtain rfl := hseps hnil
    exact hkids (hinv.not_splitsUnderFullRoot e.1) (hlinked rfl)

/-- A run of insertions holds what was inserted, or it does not fit the mapping. -/
theorem Holds.run_insert {past : List (ℕ × ℕ)} (h : Holds past t) (es : List (ℕ × ℕ)) :
    (∃ u, run insertStep t es = .ok u ∧ Holds (past ++ es) u) ∨
      run insertStep t es = .error .unmapped := by
  have hstep : ∀ past t e, Holds past t → True →
      (∃ u, insertStep t e = .ok u ∧ Holds (past ++ [e]) u) ∨
        ∃ f, insertStep t e = .error f ∧ f = .unmapped := fun _ _ e h _ => h.insert e
  refine (Guarded.run_ok_or hstep past h (guarded_true t es)).imp id ?_
  rintro ⟨f, herr, rfl⟩
  exact herr

/-- A search in any reachable tree ends, and a hit was inserted under the key. -/
theorem Holds.search_sound {es : List (ℕ × ℕ)} (h : Holds es t) (key : ℕ) :
    ∃ r t', t.search key = .ok (r, t') ∧ Same t t' ∧ ∀ v, r = some v → (key, v) ∈ es := by
  obtain ⟨chain, seps, kids, hinv, hperm, -⟩ := h
  obtain ⟨r, t', hsearch, hsame, hsound⟩ := hinv.search_sound key
  exact ⟨r, t', hsearch, hsame, fun v hv => hperm.subset (hsound v hv)⟩

/-- Following `next_leaf` from page 0 ends, visits every leaf page once, and meets exactly the
inserted pairs. -/
theorem leaf_chain_of_run (file : ℕ → BPTNode) (es : List (ℕ × ℕ)) :
    ∃ t, init file = .ok t ∧ (run insertStep t es = .error .unmapped ∨
      ∃ u chain, run insertStep t es = .ok u ∧
        walk (fun pid => (u.page pid).nextLeaf) noPage u.numPages 0 = some chain ∧
        chain.Nodup ∧ (∀ pid, pid ∈ chain ↔ pid < u.numPages ∧ (u.page pid).type = .leaf) ∧
        (u.stored chain).Perm es ∧
        ∀ key, ∃ r u', u.search key = .ok (r, u') ∧ ∀ v, r = some v → (key, v) ∈ es) := by
  obtain ⟨t, ht, h⟩ := init_holdsLinked file
  refine ⟨t, ht, ?_⟩
  rcases h.holds.run_insert es with ⟨u, hu, hholds⟩ | herr
  · rw [List.nil_append] at hholds
    obtain ⟨chain, seps, kids, hinv, hperm, -⟩ := id hholds
    refine Or.inr ⟨u, chain, hu, hinv.walk_eq, hinv.nodup, hinv.mem_iff, hperm, fun key => ?_⟩
    obtain ⟨r, u', hsearch, -, hsound⟩ := hholds.search_sound key
    exact ⟨r, u', hsearch, hsound⟩
  · exact Or.inl herr

/-! ## Keys stay visible -/

/-- `search` finds the key. -/
def Found (t : BPTree) (key : ℕ) : Prop := ∃ v t', t.search key = .ok (some v, t')

/-- In a tree that holds anything, something is found. -/
theorem Holds.exists_found {es : List (ℕ × ℕ)} (h : Holds es t) (hne : es ≠ []) :
    ∃ key, t.Found key := by
  obtain ⟨chain, seps, kids, hinv, hperm, hlinked⟩ := h
  have hstored : t.stored kids ≠ [] := by
    rcases hinv.root with ⟨rfl, -⟩ | hr
    · rw [hlinked rfl]
      intro hnil
      exact hne (List.nil_perm.mp (hnil ▸ hperm))
    · have hzero := List.mem_of_mem_head? hinv.kids_head
      have hhalf := hr.half_le 0 hzero
      intro hnil
      have hpairs := List.flatMap_eq_nil_iff.mp hnil 0 hzero
      rw [← BPTNode.pairs_length, hpairs] at hhalf
      simp [half] at hhalf
  obtain ⟨e, he⟩ := List.exists_mem_of_ne_nil _ hstored
  exact ⟨e.1, hinv.search_complete he⟩

/-- What an insertion owes to its callers. `es` is what was inserted before; the tree is `u` before
and `v` behind the call. -/
def KeepsKeys (es : List (ℕ × ℕ)) (u v : BPTree) (key val : ℕ) : Prop :=
  (∃ w v', v.search key = .ok (some w, v') ∧ (key, w) ∈ es ++ [(key, val)]) ∧
    ∀ key', key' ≠ key → u.Found key' → v.Found key'

/-- When the root knows all leaves, exactly the inserted keys are found. -/
theorem HoldsLinked.found_iff {es : List (ℕ × ℕ)} (h : HoldsLinked es t) (key : ℕ) :
    t.Found key ↔ ∃ w, (key, w) ∈ es := by
  constructor
  · rintro ⟨w, t', hsearch⟩
    obtain ⟨r, s, hsearch', -, hsound⟩ := h.holds.search_sound key
    rw [hsearch] at hsearch'
    cases hsearch'
    exact ⟨w, hsound w rfl⟩
  · rintro ⟨w, hw⟩
    obtain ⟨chain, seps, hinv, hperm⟩ := h
    exact hinv.search_complete (e := (key, w)) (hperm.symm.subset hw)

theorem HoldsLinked.run_insert {past es : List (ℕ × ℕ)} (h : HoldsLinked past t)
    (hg : Guarded insertStep (fun t e => ¬ SplitsUnderFullRoot t e.1) t es) :
    ∃ u, run insertStep t es = .ok u ∧ HoldsLinked (past ++ es) u := by
  have hstep : ∀ past t (e : ℕ × ℕ), HoldsLinked past t → ¬ SplitsUnderFullRoot t e.1 →
      (∃ u, insertStep t e = .ok u ∧ HoldsLinked (past ++ [e]) u) ∨
        ∃ f, insertStep t e = .error f ∧ False := fun _ _ _ h hn => Or.inl (h.insert hn)
  rcases Guarded.run_ok_or hstep past h hg with hok | ⟨_, _, hf⟩
  · exact hok
  · exact hf.elim

/-- No insertion of a run hides a key, if the run never splits a leaf under a full root. -/
theorem keepsKeys_of_run (file : ℕ → BPTNode) (t : BPTree) (ht : init file = .ok t)
    (es : List (ℕ × ℕ))
    (hg : Guarded insertStep (fun t e => ¬ SplitsUnderFullRoot t e.1) t es) :
    ∀ past key val rest, es = past ++ (key, val) :: rest →
      ∃ u v, run insertStep t past = .ok u ∧ u.insert key val = .ok v ∧
        KeepsKeys past u v key val := by
  rintro past key val rest rfl
  obtain ⟨t₀, ht₀, h⟩ := init_holdsLinked file
  obtain rfl : t₀ = t := Except.ok.inj (ht₀.symm.trans ht)
  obtain ⟨hpast, hrest⟩ := hg.append
  obtain ⟨u, hu, hholds⟩ := h.run_insert hpast
  rw [List.nil_append] at hholds
  obtain ⟨v, hv, hholds'⟩ := hholds.insert (hrest u hu).1
  refine ⟨u, v, hu, hv, ?_, fun key' _ hfound => ?_⟩
  · obtain ⟨w, v', hsearch⟩ := (hholds'.found_iff key).mpr ⟨val, by simp⟩
    obtain ⟨r, s, hsearch', -, hsound⟩ := hholds'.holds.search_sound key
    rw [hsearch] at hsearch'
    cases hsearch'
    exact ⟨w, v', hsearch, hsound w rfl⟩
  · obtain ⟨w, hw⟩ := (hholds.found_iff key').mp hfound
    exact (hholds'.found_iff key').mpr ⟨w, List.mem_append_left _ hw⟩

/-- The first insertion into a new tree is such a run. -/
theorem keepsKeys_of_first_insert :
    ∃ t v, init (fun _ => .init .leaf) = .ok t ∧ t.insert 5 0 = .ok v ∧ KeepsKeys [] t v 5 0 := by
  obtain ⟨t, ht, hinv, -⟩ := init_inv fun _ => .init .leaf
  obtain ⟨u, v, hu, hv, hkeeps⟩ := keepsKeys_of_run _ t ht [(5, 0)]
    ⟨hinv.not_splitsUnderFullRoot 5, fun _ _ => trivial⟩ [] 5 0 [] rfl
  obtain rfl : t = u := Except.ok.inj hu
  exact ⟨t, v, ht, hv, hkeeps⟩

/-! ## Ascending keys

With ascending keys every split happens in the last leaf, so `n` insertions leave
`n - 125 * (number of separators)` entries there. -/

/-- The tree behind the insertion of the keys below `n` in ascending order. -/
def Ascending (n : ℕ) (t : BPTree) : Prop :=
  ∃ chain seps, Inv t chain seps chain ∧ (∀ e ∈ t.stored chain, e.1 < n) ∧
    ∀ pid, chain.getLast? = some pid → (t.page pid).numKeys + half * seps.length = n

/-- The largest key has its place in the last leaf. -/
theorem Inv.place_last (h : Inv t chain seps kids) (hlt : ∀ e ∈ t.stored kids, e.1 < key)
    (p : Place seps kids key) :
    p.sepsRight = [] ∧ p.kidsRight = [] ∧ kids.getLast? = some p.pid := by
  have hseps : p.sepsRight = [] := by
    cases hr : p.sepsRight with
    | nil => rfl
    | cons s right =>
      have hs : s ∈ seps := by
        have : s ∈ p.sepsLeft ++ p.sepsRight := by simp [hr]
        rwa [← p.seps_eq] at this
      have hks : key < s := p.lt_right s (by simp [hr])
      obtain ⟨leaf, hleaf, e, he, rfl⟩ := h.fenced.exists_mem_of_sep hs
      obtain ⟨pid, hpid, rfl⟩ := List.mem_map.mp hleaf
      exact absurd (hlt e (List.mem_flatMap.mpr ⟨pid, hpid, he⟩)) hks.asymm
  have hkids : p.kidsRight = [] := by
    have hlen := h.kids_length
    have h1 := congrArg List.length p.seps_eq
    have h2 := congrArg List.length p.kids_eq
    have h3 := p.length_eq
    simp only [List.length_append, List.length_cons, hseps, List.length_nil] at h1 h2
    exact List.length_eq_zero_iff.mp (by omega)
  refine ⟨hseps, hkids, ?_⟩
  have hlast : (p.kidsLeft ++ p.pid :: p.kidsRight).getLast? = some p.pid := by simp [hkids]
  rwa [← p.kids_eq] at hlast

theorem Ascending.insert {n : ℕ} (h : Ascending n t) (hn : n < 31500) (val : ℕ) :
    ∃ u, t.insert n val = .ok u ∧ Ascending (n + 1) u := by
  obtain ⟨chain, seps, hinv, hlt, hsize⟩ := h
  obtain ⟨p, hp⟩ := exists_place n hinv.kids_length
  obtain ⟨hsr, hkr, hlast⟩ := hinv.place_last hlt p
  have hsize' := hsize _ hlast
  have hbelow : ∀ {w : BPTree} {c : List ℕ}, (w.stored c).Perm ((n, val) :: t.stored chain) →
      ∀ e ∈ w.stored c, e.1 < n + 1 := by
    intro w c hperm e he
    rcases List.mem_cons.mp (hperm.subset he) with rfl | he
    · exact Nat.lt_succ_self _
    · exact (hlt e he).trans (Nat.lt_succ_self _)
  rcases (hinv.mem_kids p.mem).2.2.lt_or_eq with hroom | hfull
  · obtain ⟨u, hu, hinv', hperm, hkeys, -⟩ := hinv.insert_room p val hp hroom
    refine ⟨u, hu, chain, seps, hinv', hbelow hperm, fun pid hpid => ?_⟩
    obtain rfl : p.pid = pid := Option.some.inj (hlast.symm.trans hpid)
    omega
  have hlinked : (mappedPages ≤ t.numPages + 1 ∧ t.insert n val = .error .unmapped) ∨
      ∃ v chain', t.insert n val = .ok v ∧
        Inv v chain' (p.sepsLeft ++ splitKey (t.page p.pid) n val :: p.sepsRight)
          (p.kidsLeft ++ p.pid :: t.numPages :: p.kidsRight) ∧
        (v.stored chain').Perm ((n, val) :: t.stored chain) ∧
        (chain = chain → chain' = p.kidsLeft ++ p.pid :: t.numPages :: p.kidsRight) ∧
        (v.page t.numPages).numKeys = half + 1 ∧
        ((∀ q ∈ chain, q ≠ p.pid → half ≤ (t.page q).numKeys) →
          ∀ q ∈ chain', half ≤ (v.page q).numKeys) := by
    rcases hinv.root with ⟨rfl, -⟩ | hr
    · exact hinv.insert_newRoot p val hp hfull
    · refine hinv.insert_linked hr p val hp hfull ?_
      simp only [half, bptOrder] at *
      omega
  rcases hlinked with ⟨hnum, -⟩ | ⟨v, chain', hv, hinv', hperm, hchain, hkeys, -⟩
  · have := hinv.numPages_le
    simp only [mappedPages, bptOrder] at *
    omega
  · obtain rfl := hchain rfl
    refine ⟨v, hv, _, _, hinv', hbelow hperm, fun pid hpid => ?_⟩
    have hpid' : t.numPages = pid := by simpa [hkr] using hpid
    have hlen := congrArg List.length p.seps_eq
    simp only [List.length_append, List.length_cons, hsr, List.length_nil, half, bptOrder] at *
    rw [← hpid']
    omega

/-- The run that inserts the keys below `n` in ascending order. -/
theorem Ascending.run (ht : Ascending 0 t) {n : ℕ} (hn : n ≤ 31500) :
    ∃ u, run insertStep t ((List.range n).map fun k => (k, k)) = .ok u ∧ Ascending n u := by
  induction n with
  | zero => exact ⟨t, rfl, ht⟩
  | succ n ih =>
    obtain ⟨u, hu, hasc⟩ := ih (by omega)
    obtain ⟨v, hv, hasc'⟩ := hasc.insert (by omega) n
    refine ⟨v, ?_, hasc'⟩
    rw [List.range_succ, List.map_append, run_append_of_ok _ hu, List.map_singleton, run_singleton]
    exact hv

/-- The 31501st of these insertions splits the last leaf under a full root and loses its own key:
the left half, which is all that the root knows, ends below the new key. -/
theorem Ascending.insert_hidden (h : Ascending 31500 t) (val : ℕ) :
    ∃ v v', t.insert 31500 val = .ok v ∧ v.search 31500 = .ok (none, v') := by
  obtain ⟨chain, seps, hinv, hlt, hsize⟩ := h
  obtain ⟨p, hp⟩ := exists_place 31500 hinv.kids_length
  obtain ⟨-, -, hlast⟩ := hinv.place_last hlt p
  have hsize' := hsize _ hlast
  have hle := (hinv.mem_kids p.mem).2.2
  rcases hinv.root with ⟨rfl, -⟩ | hr
  · simp only [List.length_nil, half, bptOrder] at *
    omega
  have hseps := hr.length_le
  have hfull : (t.page p.pid).numKeys = bptOrder := by simp only [half, bptOrder] at *; omega
  have hroot : seps.length = bptOrder := by simp only [half, bptOrder] at *; omega
  rcases hinv.insert_dropped hr p val hp hfull hroot with
    ⟨hnum, -⟩ | ⟨v, chain', hv, hinv', -, hpairs, -⟩
  · have := hinv.numPages_le
    simp only [mappedPages, bptOrder] at *
    omega
  obtain ⟨v', hsearch, -⟩ := hinv'.search_eq hp
  refine ⟨v, v', hv, ?_⟩
  rw [hsearch, hpairs, List.find?_eq_none.mpr]
  · rfl
  intro e he
  rw [decide_eq_true_eq]
  intro hkey
  -- all entries of the right half would be at least as large as the new key
  have hperm := splitEntries_perm (t.page p.pid) 31500 val
  have hone : (splitEntries (t.page p.pid) 31500 val).countP (fun e => 31500 ≤ e.1) ≤ 1 := by
    rw [hperm.countP_eq, List.countP_cons_of_pos (by simp), List.countP_eq_zero.mpr]
    intro e he
    have := hlt e (List.mem_flatMap.mpr ⟨p.pid, p.mem, he⟩)
    simpa using this
  have hright : ((splitEntries (t.page p.pid) 31500 val).drop half).countP
      (fun e => 31500 ≤ e.1) = half + 1 := by
    rw [List.countP_eq_length.mpr, List.length_drop, splitEntries_length _ _ hfull]
    · decide
    · intro e' he'
      have hsorted := splitEntries_sorted (t.page p.pid) 31500 val
      rw [← List.take_append_drop half (splitEntries _ _ _)] at hsorted
      have := (List.pairwise_append.mp hsorted).2.2 e he e' he'
      simpa [hkey] using this
  have hdrop := (List.drop_sublist half (splitEntries (t.page p.pid) 31500 val)).countP_le
    (p := fun e => 31500 ≤ e.1)
  simp only [half] at *
  omega

/-- After 31500 ascending keys the next insertion is not visible. -/
theorem not_keepsKeys_ascending :
    ∃ t u v, init (fun _ => .init .leaf) = .ok t ∧
      Runs.run insertStep t ((List.range 31500).map fun k => (k, k)) = .ok u ∧
      u.insert 31500 31500 = .ok v ∧
      ¬ KeepsKeys ((List.range 31500).map fun k => (k, k)) u v 31500 31500 := by
  obtain ⟨t, ht, hinv, hstored⟩ := init_inv fun _ => .init .leaf
  have hzero : Ascending 0 t := by
    refine ⟨[0], [], hinv, by simp [hstored], fun pid hpid => ?_⟩
    obtain rfl : 0 = pid := by simpa using hpid
    have hnil : (t.page 0).pairs = [] := by simpa [stored] using hstored
    rw [← BPTNode.pairs_length, hnil]
    rfl
  obtain ⟨u, hu, hasc⟩ := hzero.run le_rfl
  obtain ⟨v, v', hv, hsearch⟩ := hasc.insert_hidden 31500
  refine ⟨t, u, v, ht, hu, hv, ?_⟩
  rintro ⟨⟨w, s, hfound, -⟩, -⟩
  rw [hsearch] at hfound
  cases hfound

end FlexQL.BPTree
