import FlexQL.Index.TreeProperties
import Mathlib.Data.List.Induction

/-!
# How much the index holds

A root that is full takes no further child. It gets full only behind enough insertions, because all
leaves are half full; and once there are more keys than its leaves have room for, some are lost.
-/

namespace FlexQL.BPTree

open Runs

variable {t u : BPTree} {chain seps kids : List ℕ} {es : List (ℕ × ℕ)}

/-- The entries below a full root when all leaves are half full, and one of them is full. -/
def safeCapacity : ℕ := half * bptOrder + bptOrder

/-- The entries below a full root when all leaves are full. -/
def fullCapacity : ℕ := bptOrder * (bptOrder + 1)

/-! ## Enough room -/

/-- Half full leaves with a full one among them. -/
theorem half_mul_length_le_of_full (hhalf : ∀ q ∈ chain, half ≤ (t.page q).numKeys) {pid : ℕ}
    (hpid : pid ∈ chain) (hfull : (t.page pid).numKeys = bptOrder) :
    half * (chain.length - 1) + bptOrder ≤ (t.stored chain).length := by
  obtain ⟨left, right, rfl⟩ := List.append_of_mem hpid
  have hleft := half_mul_length_le fun q hq => hhalf q (List.mem_append_left _ hq)
  have hright := half_mul_length_le fun q hq => hhalf q (List.mem_append_right _ (List.mem_cons_of_mem _ hq))
  have hlength : (left ++ pid :: right).length - 1 = left.length + right.length := by
    simp only [List.length_append, List.length_cons]
    omega
  rw [hlength, Nat.mul_add, stored_append, stored_cons, List.length_append, List.length_append,
    BPTNode.pairs_length, hfull]
  omega

/-- No leaf is split under a full root as long as there are too few entries for that. -/
theorem HoldsDense.not_splitsUnderFullRoot (h : HoldsDense es t) (hlen : es.length < safeCapacity) (key : ℕ) :
    ¬ SplitsUnderFullRoot t key := by
  obtain ⟨chain, seps, kids, hinv, hperm, -, hhalf⟩ := h
  rintro ⟨htype, hkeys, pid, t', hfind, hfull⟩
  rcases hinv.root with ⟨rfl, -⟩ | hr
  · exact hinv.not_splitsUnderFullRoot key ⟨htype, hkeys, pid, t', hfind, hfull⟩
  · obtain ⟨p, hp⟩ := exists_place key hinv.kids_length
    obtain ⟨t'', hfind', -⟩ := hinv.findLeaf_eq hp
    obtain rfl : pid = p.pid := (Prod.mk.inj (Except.ok.inj (hfind.symm.trans hfind'))).1
    have hentries := half_mul_length_le_of_full (hhalf hr.nonempty) (hinv.sublist.subset p.mem) hfull
    have hkids := hinv.sublist.length_le
    have hlength := hinv.kids_length
    have hseps : seps.length = bptOrder := hr.numKeys_eq.symm.trans hkeys
    rw [hperm.length_eq] at hentries
    simp only [safeCapacity, half, bptOrder] at *
    omega

/-- The root knows all leaves of a run that is short enough. -/
theorem exists_run_of_length_le (file : ℕ → BPTNode) (hlen : es.length ≤ safeCapacity) :
    ∃ t u, init file = .ok t ∧ run insertStep t es = .ok u ∧ HoldsLinked es u := by
  obtain ⟨t, ht, hlinked⟩ := init_holdsLinked file
  obtain ⟨t', ht', hdense⟩ := init_holdsDense file
  obtain rfl : t' = t := Except.ok.inj (ht'.symm.trans ht)
  refine ⟨t', ?_⟩
  suffices h : ∃ u, run insertStep t' es = .ok u ∧ HoldsLinked es u ∧ HoldsDense es u by
    obtain ⟨u, hu, hlinked, -⟩ := h
    exact ⟨u, ht, hu, hlinked⟩
  induction es using List.reverseRecOn with
  | nil => exact ⟨t', rfl, hlinked, hdense⟩
  | append_singleton es e ih =>
    rw [List.length_append, List.length_singleton] at hlen
    obtain ⟨u, hu, hlinked, hdense⟩ := ih (by omega)
    obtain ⟨v, hv, hlinked'⟩ := hlinked.insert (hdense.not_splitsUnderFullRoot (by omega) e.1)
    refine ⟨v, by rw [run_append_of_ok _ hu, run_singleton, hv], hlinked', ?_⟩
    rcases hdense.insert e with ⟨-, herr⟩ | ⟨v', hv', hdense'⟩
    · rw [hv] at herr
      cases herr
    · rw [hv] at hv'
      cases hv'
      exact hdense'

/-! ## Too many keys -/

/-- What is found lies in a leaf below the root. -/
theorem Inv.mem_stored_of_found (h : Inv t chain seps kids) {key : ℕ} (hfound : t.Found key) :
    key ∈ (t.stored kids).map Prod.fst := by
  obtain ⟨v, t', hsearch⟩ := hfound
  obtain ⟨p, hp⟩ := exists_place key h.kids_length
  obtain ⟨t'', hsearch', -⟩ := h.search_eq hp
  have hfind := (Prod.mk.inj (Except.ok.inj (hsearch.symm.trans hsearch'))).1
  obtain ⟨e, he, -⟩ := Option.map_eq_some_iff.mp hfind.symm
  have hkey : e.1 = key := by simpa using List.find?_some he
  exact List.mem_map.mpr ⟨e, List.mem_flatMap.mpr ⟨p.pid, p.mem, List.mem_of_find?_eq_some he⟩, hkey⟩

theorem stored_length_le (hsize : ∀ q ∈ kids, (t.page q).numKeys ≤ bptOrder) :
    (t.stored kids).length ≤ bptOrder * kids.length := by
  induction kids with
  | nil => simp [stored]
  | cons q kids ih =>
    have hq := hsize q List.mem_cons_self
    have hrest := ih fun q' hq' => hsize q' (List.mem_cons_of_mem _ hq')
    rw [stored_cons, List.length_append, BPTNode.pairs_length, List.length_cons, Nat.mul_succ]
    omega

/-- The root leads to no more entries than its leaves have room for. -/
theorem Inv.stored_kids_le (h : Inv t chain seps kids) : (t.stored kids).length ≤ fullCapacity := by
  have hle := stored_length_le fun q hq => (h.mem_kids hq).2.2
  have hkids : kids.length ≤ bptOrder + 1 := by
    rw [h.kids_length]
    rcases h.root with ⟨rfl, -⟩ | hr
    · simp
    · exact Nat.succ_le_succ hr.length_le
  exact hle.trans (Nat.mul_le_mul_left _ hkids)

/-- Some keys are lost when there are too many. -/
theorem Holds.exists_not_found (h : Holds es t) (hkeys : (es.map Prod.fst).Nodup)
    (hlen : fullCapacity < es.length) : ∃ e ∈ es, ¬ t.Found e.1 := by
  obtain ⟨chain, seps, kids, hinv, -⟩ := h
  by_contra hall
  push Not at hall
  have hsubset : es.map Prod.fst ⊆ (t.stored kids).map Prod.fst := by
    intro key hkey
    obtain ⟨e, he, rfl⟩ := List.mem_map.mp hkey
    exact hinv.mem_stored_of_found (hall e he)
  have hle := (List.subperm_of_subset hkeys hsubset).length_le
  have hfull := hinv.stored_kids_le
  rw [List.length_map, List.length_map] at hle
  omega

/-! ## The bounds -/

theorem init_ascending (file : ℕ → BPTNode) : ∃ t, init file = .ok t ∧ Ascending 0 t := by
  obtain ⟨t, ht, hinv, hstored⟩ := init_inv file
  refine ⟨t, ht, [0], [], hinv, by simp [hstored], fun pid hpid => ?_⟩
  obtain rfl : 0 = pid := by simpa using hpid
  have hnil : (t.page 0).pairs = [] := by simpa [stored] using hstored
  rw [← BPTNode.pairs_length, hnil]
  rfl

/-- The run that loses the last of ascending keys. -/
theorem exists_lost (file : ℕ → BPTNode) : ∃ t es u, init file = .ok t ∧ es.length = safeCapacity + 1 ∧
    run insertStep t es = .ok u ∧ ∃ e ∈ es, ¬ u.Found e.1 := by
  obtain ⟨t, ht, hzero⟩ := init_ascending file
  obtain ⟨u, hu, hasc⟩ := hzero.run le_rfl
  obtain ⟨v, v', hv, hsearch⟩ := hasc.insert_hidden 31500
  refine ⟨t, (List.range 31500).map (fun k => (k, k)) ++ [(31500, 31500)], v, ht, ?_, ?_, (31500, 31500), ?_, ?_⟩
  · rw [List.length_append, List.length_map, List.length_range]
    rfl
  · rw [run_append_of_ok _ hu, run_singleton]
    exact hv
  · exact List.mem_append_right _ List.mem_cons_self
  · rintro ⟨w, s, hfound⟩
    rw [hsearch] at hfound
    cases hfound

/-- The index finds exactly the keys of up to 31500 insertions, whatever their order, and may lose one
with the next insertion. Of more than 62750 different keys it has lost some. -/
theorem index_capacity (file : ℕ → BPTNode) : ∃ t, init file = .ok t ∧
    (∀ es : List (ℕ × ℕ), es.length ≤ safeCapacity →
      ∃ u, run insertStep t es = .ok u ∧ ∀ key, u.Found key ↔ ∃ val, (key, val) ∈ es) ∧
    (∃ es u, es.length = safeCapacity + 1 ∧ run insertStep t es = .ok u ∧ ∃ e ∈ es, ¬ u.Found e.1) ∧
    ∀ es : List (ℕ × ℕ), (es.map Prod.fst).Nodup → fullCapacity < es.length →
      run insertStep t es = .error .unmapped ∨
        ∃ u, run insertStep t es = .ok u ∧ ∃ e ∈ es, ¬ u.Found e.1 := by
  obtain ⟨t, ht, hlinked⟩ := init_holdsLinked file
  refine ⟨t, ht, fun es hlen => ?_, ?_, fun es hkeys hlen => ?_⟩
  · obtain ⟨t', u, ht', hu, hholds⟩ := exists_run_of_length_le file hlen
    obtain rfl : t = t' := Except.ok.inj (ht.symm.trans ht')
    exact ⟨u, hu, hholds.found_iff⟩
  · obtain ⟨t', es, u, ht', hlost⟩ := exists_lost file
    obtain rfl : t = t' := Except.ok.inj (ht.symm.trans ht')
    exact ⟨es, u, hlost⟩
  · rcases hlinked.holds.run_insert es with ⟨u, hu, hholds⟩ | herr
    · exact Or.inr ⟨u, hu, hholds.exists_not_found hkeys hlen⟩
    · exact Or.inl herr

end FlexQL.BPTree
