import FlexQL.Index.TreeProperties
import FlexQL.Storage.ColumnSpec

/-!
# Reopening a file

The destructor of a pager writes the mapping back and unmaps it; the bytes of the file are assumed
to stay. A new object is then constructed on these bytes. Since a pager always starts without
pages, neither a column store nor a tree finds anything there.
-/

namespace FlexQL

open Runs

/-- The new store `s'` on the file of `s` reports as many rows and reads the same items. -/
def ColumnStore.Recovers (size : ℕ) (mem : ByteMemory) (s s' : ColumnStore) : Prop :=
  s'.getTotalRows = s.getTotalRows ∧ ∀ rid,
    (ColumnReader.readAt s'.cache mem rid size).map Prod.fst =
      (ColumnReader.readAt s.cache mem rid size).map Prod.fst

/-- The new tree `t'` on the file of `t` answers every search as `t` does. -/
def BPTree.Recovers (t t' : BPTree) : Prop :=
  ∀ key, (t'.search key).map Prod.fst = (t.search key).map Prod.fst

namespace ColumnStore

open ByteMemory

theorem contents_insertFixed (items items' : List (List UInt8)) :
    contents items (items'.map .insertFixed) = items ++ items' := by
  induction items' generalizing items with
  | nil => simp [contents]
  | cons item items' ih => simp [contents, ih]

theorem fits_insertFixed {size : ℕ} {items items' : List (List UInt8)}
    (hsize : ∀ item ∈ items', item.length = size)
    (hfits : items.length + items'.length ≤ mappedPages * (4088 / size)) :
    Fits size items (items'.map .insertFixed) := by
  induction items' generalizing items with
  | nil => trivial
  | cons item items' ih =>
    rw [List.length_cons] at hfits
    refine ⟨hsize item List.mem_cons_self, by omega, ih ?_ ?_⟩
    · exact fun i hi => hsize i (List.mem_cons_of_mem _ hi)
    · rw [List.length_append, List.length_singleton]
      omega

/-- A store that holds items is recovered only if there are none. -/
theorem Holds.recovers_iff {size : ℕ} {s s' : ColumnStore} {mem : ByteMemory}
    {items : List (List UInt8)} (hf : (SlotFormat.fixed size).Sound)
    (h : Holds (.fixed size) s mem items) (hsize : ∀ item ∈ items, item.length = size)
    (hs' : init s.filePath mem = .ok s') : Recovers size mem s s' ↔ items = [] := by
  obtain ⟨s₀, hs₀, h'⟩ := init_holds hf s.filePath mem
  obtain rfl : s₀ = s' := Except.ok.inj (hs₀.symm.trans hs')
  have htotal := h.totalRows_eq
  have htotal' := h'.totalRows_eq
  constructor
  · rintro ⟨hrows, -⟩
    simp only [getTotalRows] at hrows
    exact List.length_eq_zero_iff.mp (by simp only [List.length_nil] at htotal'; omega)
  · rintro rfl
    refine ⟨htotal'.trans htotal.symm, fun rid => ?_⟩
    obtain ⟨cache, hread, -⟩ := ColumnReader.readAt_eq hf h.pages hsize rid
    obtain ⟨cache', hread', -⟩ := ColumnReader.readAt_eq hf h'.pages hsize rid
    rw [hread, hread']
    rfl

end ColumnStore

namespace BPTree

theorem Holds.search_nil {t : BPTree} (h : Holds [] t) (key : ℕ) :
    (t.search key).map Prod.fst = .ok none := by
  obtain ⟨r, t', hsearch, -, hsound⟩ := h.search_sound key
  cases r with
  | none => rw [hsearch]; rfl
  | some v => simpa using hsound v rfl

/-- So is a tree. -/
theorem Holds.recovers_iff {t t' : BPTree} {es : List (ℕ × ℕ)} (h : Holds es t)
    (ht' : init t.file = .ok t') : Recovers t t' ↔ es = [] := by
  obtain ⟨t₀, ht₀, h'⟩ := init_holdsLinked t.file
  obtain rfl : t₀ = t' := Except.ok.inj (ht₀.symm.trans ht')
  constructor
  · intro hrec
    by_contra hne
    obtain ⟨key, v, u, hfound⟩ := h.exists_found hne
    have := hrec key
    rw [h'.holds.search_nil, hfound] at this
    cases this
  · rintro rfl key
    rw [h.search_nil, h'.holds.search_nil]

end BPTree

/-- A file recovers its content exactly if nothing was ever inserted. -/
theorem reopen_recovers_iff (filePath : Text) (mem : ByteMemory) (size : ℕ) (hpos : 1 ≤ size)
    (hle : size ≤ 4088) (items : List (List UInt8)) (hsize : ∀ item ∈ items, item.length = size)
    (hfits : items.length ≤ mappedPages * (4088 / size)) (file : ℕ → BPTNode)
    (es : List (ℕ × ℕ)) (t u : BPTree) (ht : BPTree.init file = .ok t)
    (hu : run BPTree.insertStep t es = .ok u) :
    (∃ s s' mem' s'', ColumnStore.init filePath mem = .ok s ∧
      run (ColumnStore.step size) (s, mem) (items.map .insertFixed) = .ok (s', mem') ∧
      ColumnStore.init s'.filePath mem' = .ok s'' ∧
      (ColumnStore.Recovers size mem' s' s'' ↔ items = [])) ∧
    ∃ u', BPTree.init u.file = .ok u' ∧ (BPTree.Recovers u u' ↔ es = []) := by
  have hf := SlotFormat.fixed_sound hpos hle
  constructor
  · obtain ⟨s, hs, h⟩ := ColumnStore.init_holds hf filePath mem
    obtain ⟨s', mem', hrun, h', hsize'⟩ := ColumnStore.run_holds hf h (by simp)
      (ColumnStore.fits_insertFixed hsize (by simpa using hfits))
    rw [ColumnStore.contents_insertFixed, List.nil_append] at h' hsize'
    exact ⟨s, s', mem', _, hs, hrun, ColumnStore.init_eq _ _,
      h'.recovers_iff hf hsize' (ColumnStore.init_eq _ _)⟩
  · obtain ⟨t₀, ht₀, h⟩ := BPTree.init_holdsLinked file
    obtain rfl : t₀ = t := Except.ok.inj (ht₀.symm.trans ht)
    rcases h.holds.run_insert es with ⟨u₀, hu₀, h'⟩ | herr
    · obtain rfl : u₀ = u := Except.ok.inj (hu₀.symm.trans hu)
      obtain ⟨u', hu', -⟩ := BPTree.init_holdsLinked u₀.file
      exact ⟨u', hu', h'.recovers_iff hu'⟩
    · rw [herr] at hu
      cases hu

/-- Without insertions there is nothing to recover. -/
theorem reopen_recovers_of_nil :
    ∃ s s' mem' s'' t t', ColumnStore.init [] (fun _ => 0) = .ok s ∧
      run (ColumnStore.step 8) (s, fun _ => 0) [] = .ok (s', mem') ∧
      ColumnStore.init s'.filePath mem' = .ok s'' ∧ ColumnStore.Recovers 8 mem' s' s'' ∧
      BPTree.init (fun _ => .init .leaf) = .ok t ∧ BPTree.init t.file = .ok t' ∧
      BPTree.Recovers t t' := by
  obtain ⟨t, ht, -⟩ := BPTree.init_inv fun _ => .init .leaf
  obtain ⟨⟨s, s', mem', s'', hs, hs', hs'', hrec⟩, t', ht', hrec'⟩ := reopen_recovers_iff []
    (fun _ => 0) 8 (by decide) (by decide) [] (by simp) (by simp) _ [] t t ht rfl
  exact ⟨s, s', mem', s'', t, t', hs, hs', hs'', hrec.mpr rfl, ht, ht', hrec'.mpr rfl⟩

/-- One item of eight bytes is lost, and so is one key. -/
theorem not_reopen_recovers :
    (∃ s s' mem' s'', ColumnStore.init [] (fun _ => 0) = .ok s ∧
      s.insertFixed (fun _ => 0) [7, 0, 0, 0, 0, 0, 0, 0] = .ok (s', mem') ∧
      ColumnStore.init s'.filePath mem' = .ok s'' ∧ ¬ ColumnStore.Recovers 8 mem' s' s'') ∧
    ∃ t u u', BPTree.init (fun _ => .init .leaf) = .ok t ∧ t.insert 1 0 = .ok u ∧
      BPTree.init u.file = .ok u' ∧ ¬ BPTree.Recovers u u' := by
  have hf : (SlotFormat.fixed 8).Sound := SlotFormat.fixed_sound (by decide) (by decide)
  constructor
  · obtain ⟨s, hs, h⟩ := ColumnStore.init_holds hf [] fun _ => 0
    rcases ColumnStore.insertFixed_spec [7, 0, 0, 0, 0, 0, 0, 0] hf h with
      ⟨hfull, -⟩ | ⟨s', mem', hs', h', -⟩
    · simp [mappedPages] at hfull
    · refine ⟨s, s', mem', _, hs, hs', ColumnStore.init_eq _ _, fun hrec => ?_⟩
      exact absurd ((h'.recovers_iff hf (by simp) (ColumnStore.init_eq _ _)).mp hrec) (by simp)
  · obtain ⟨t, ht, hinv, -⟩ := BPTree.init_inv fun _ => .init .leaf
    obtain ⟨t₀, ht₀, h⟩ := BPTree.init_holdsLinked fun _ => .init .leaf
    obtain rfl : t₀ = t := Except.ok.inj (ht₀.symm.trans ht)
    obtain ⟨u, hu, h'⟩ := h.insert (e := (1, 0)) (hinv.not_splitsUnderFullRoot 1)
    obtain ⟨u', hu', -⟩ := BPTree.init_holdsLinked u.file
    refine ⟨t₀, u, u', ht, hu, hu', fun hrec => ?_⟩
    exact absurd ((h'.holds.recovers_iff hu').mp hrec) (by simp)

end FlexQL
