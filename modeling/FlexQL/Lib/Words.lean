import FlexQL.Lib.TextLemmas
import Mathlib.Data.List.Chain
import Mathlib.Data.List.Infix

/-!
# Words and keywords

`words` cuts a text at its white space, as repeated extraction from a stream does. Searching for a
phrase that is set off by blanks is searching the words for the words of the phrase.
-/

namespace Text

variable {a b g s t w : Text} {c : UInt8}

/-- The maximal runs of bytes that are no white space. -/
def words (s : Text) : List Text := (s.splitOnP isSpace).filter (· ≠ [])

/-- A non-empty run of bytes that are no white space. -/
structure IsWord (w : Text) : Prop where
  ne_nil : w ≠ []
  noSpace : ∀ b ∈ w, isSpace b = false

@[simp] theorem words_nil : words [] = [] := by simp [words]

theorem words_append_cons (a b : Text) (h : isSpace c = true) :
    words (a ++ c :: b) = words a ++ words b := by
  simp [words, List.splitOnP_append_cons a b h]

theorem words_cons_of_space (h : isSpace c = true) (s : Text) : words (c :: s) = words s := by
  simpa using words_append_cons [] s h

theorem IsWord.words_eq (h : IsWord w) : words w = [w] := by
  simp [words, List.splitOnP_eq_singleton h.noSpace, h.ne_nil]

theorem words_space_append (hg : ∀ x ∈ g, isSpace x = true) (s : Text) : words (g ++ s) = words s := by
  induction g with
  | nil => rfl
  | cons c g ih =>
    rw [List.cons_append, words_cons_of_space (hg c List.mem_cons_self)]
    exact ih fun x hx => hg x (List.mem_cons_of_mem _ hx)

theorem words_of_space (hg : ∀ x ∈ g, isSpace x = true) : words g = [] := by
  simpa using words_space_append hg []

/-- White space sets the words before it off from those behind it. -/
theorem words_append_space_append (hg : ∀ x ∈ g, isSpace x = true) (hne : g ≠ []) (a b : Text) :
    words (a ++ (g ++ b)) = words a ++ words b := by
  obtain ⟨c, g, rfl⟩ := List.exists_cons_of_ne_nil hne
  rw [List.cons_append, words_append_cons _ _ (hg c List.mem_cons_self),
    words_space_append fun x hx => hg x (List.mem_cons_of_mem _ hx)]

theorem words_append_space (hg : ∀ x ∈ g, isSpace x = true) (a : Text) : words (a ++ g) = words a := by
  by_cases hne : g = []
  · simp [hne]
  · simpa using words_append_space_append hg hne a []

theorem words_ne_nil (hc : c ∈ s) (h : isSpace c = false) : words s ≠ [] := by
  induction s with
  | nil => simp at hc
  | cons x s ih =>
    by_cases hx : isSpace x = true
    · rw [words_cons_of_space hx]
      rcases List.mem_cons.mp hc with rfl | hc
      · simp [h] at hx
      · exact ih hc
    · have hne := List.splitOnP_ne_nil isSpace s
      obtain ⟨first, rest, hsplit⟩ := List.exists_cons_of_ne_nil hne
      simp [words, List.splitOnP_cons_eq_if_modifyHead, hx, hsplit]

theorem length_words_le (s : Text) : (words s).length ≤ s.length := by
  induction s with
  | nil => simp
  | cons c s ih =>
    by_cases hc : isSpace c = true
    · rw [words_cons_of_space hc, List.length_cons]
      omega
    · obtain ⟨first, rest, hsplit⟩ := List.exists_cons_of_ne_nil (List.splitOnP_ne_nil isSpace s)
      have hcons : words (c :: s) = (c :: first) :: rest.filter (· ≠ []) := by
        simp [words, List.splitOnP_cons_eq_if_modifyHead, hc, hsplit]
      have hle : (rest.filter (· ≠ [])).length ≤ (words s).length := by
        rw [words, hsplit]
        exact ((List.sublist_cons_self first rest).filter _).length_le
      rw [hcons, List.length_cons, List.length_cons]
      omega

/-! ## Extraction from a stream -/

theorem extract_of_space (hg : ∀ x ∈ g, isSpace x = true) : extract g = none := by
  simp [extract, List.dropWhile_eq_nil_iff.mpr hg]

/-- Extraction skips white space and stops at white space. -/
theorem extract_append {r : Text} (hg : ∀ x ∈ g, isSpace x = true) (hw : IsWord w)
    (hr : ∀ x, r.head? = some x → isSpace x = true) : extract (g ++ (w ++ r)) = some (w, r) := by
  obtain ⟨x, w, rfl⟩ := List.exists_cons_of_ne_nil hw.ne_nil
  have hx : isSpace x = false := hw.noSpace x List.mem_cons_self
  have hdrop : (g ++ (x :: w ++ r)).dropWhile isSpace = x :: w ++ r := by
    rw [List.dropWhile_append_of_pos hg, List.cons_append, List.dropWhile_cons_of_neg (by simp [hx])]
  have hword : ∀ y ∈ x :: w, (!isSpace y) = true := by
    intro y hy
    simp [hw.noSpace y hy]
  have htake : r.takeWhile (!isSpace ·) = [] := by
    cases r with
    | nil => rfl
    | cons y r => simp [hr y rfl]
  have hrest : r.dropWhile (!isSpace ·) = r := by
    cases r with
    | nil => rfl
    | cons y r => simp [hr y rfl]
  rw [extract, hdrop]
  change some (_, _) = _
  rw [List.takeWhile_append_of_pos hword, List.dropWhile_append_of_pos hword, htake, hrest,
    List.append_nil]

theorem extract_cases (s : Text) :
    (∀ x ∈ s, isSpace x = true) ∨
      ∃ g w r, s = g ++ (w ++ r) ∧ (∀ x ∈ g, isSpace x = true) ∧ IsWord w ∧
        ∀ x, r.head? = some x → isSpace x = true := by
  have hs : s = s.takeWhile isSpace ++ s.dropWhile isSpace := (List.takeWhile_append_dropWhile ..).symm
  have ht : s.dropWhile isSpace =
      (s.dropWhile isSpace).takeWhile (!isSpace ·) ++ (s.dropWhile isSpace).dropWhile (!isSpace ·) :=
    (List.takeWhile_append_dropWhile ..).symm
  have hhead := List.head?_dropWhile_not isSpace s
  cases hdrop : s.dropWhile isSpace with
  | nil => exact Or.inl (List.dropWhile_eq_nil_iff.mp hdrop)
  | cons x t =>
    rw [hdrop] at ht hhead
    have hx : isSpace x = false := by simpa using hhead
    refine Or.inr ⟨_, _, _, hs.trans (by rw [hdrop, ← ht]), ?_, ⟨?_, ?_⟩, ?_⟩
    · intro y hy
      exact List.mem_takeWhile_imp hy
    · simp [hx]
    · intro y hy
      simpa using List.mem_takeWhile_imp hy
    · intro y hy
      have hstop := List.head?_dropWhile_not (!isSpace ·) (x :: t)
      rw [hy] at hstop
      simpa using hstop

/-- Extraction takes the first word off. -/
theorem words_eq_extract (s : Text) :
    words s = match extract s with
      | none => []
      | some (w, r) => w :: words r := by
  rcases extract_cases s with hs | ⟨g, w, r, rfl, hg, hw, hr⟩
  · rw [extract_of_space hs, words_of_space hs]
  · rw [extract_append hg hw hr, words_space_append hg]
    change _ = w :: words r
    cases r with
    | nil => rw [List.append_nil, hw.words_eq, words_nil]
    | cons x r =>
      rw [words_append_cons _ _ (hr x rfl), hw.words_eq, words_cons_of_space (hr x rfl)]
      rfl

/-- Splitting two texts in a row glues the last piece of the one to the first of the other. -/
theorem splitOnP_append (p : UInt8 → Bool) (a b : Text) :
    ∃ l u v r, a.splitOnP p = l ++ [u] ∧ b.splitOnP p = v :: r ∧
      (a ++ b).splitOnP p = l ++ (u ++ v) :: r := by
  obtain ⟨v, r, hb⟩ := List.exists_cons_of_ne_nil (List.splitOnP_ne_nil p b)
  induction a with
  | nil => exact ⟨[], [], v, r, by simp, hb, by simpa using hb⟩
  | cons x a ih =>
    obtain ⟨l, u, v', r', ha, hb', hab⟩ := ih
    by_cases hx : p x = true
    · refine ⟨[] :: l, u, v', r', ?_, hb', ?_⟩
      · simp [List.splitOnP_cons_eq_if_modifyHead, hx, ha]
      · simp [List.splitOnP_cons_eq_if_modifyHead, hx, hab]
    · cases l with
      | nil =>
        refine ⟨[], x :: u, v', r', ?_, hb', ?_⟩
        · simp [List.splitOnP_cons_eq_if_modifyHead, hx, ha]
        · simp [List.splitOnP_cons_eq_if_modifyHead, hx, hab]
      | cons first l =>
        refine ⟨(x :: first) :: l, u, v', r', ?_, hb', ?_⟩
        · simp [List.splitOnP_cons_eq_if_modifyHead, hx, ha]
        · simp [List.splitOnP_cons_eq_if_modifyHead, hx, hab]

/-- The words of a text that holds a given byte: the ones before it, the ones behind it, and one
that holds it. -/
theorem mem_words_append_cons (h : w ∈ words (a ++ c :: b)) :
    w ∈ words a ∨ w ∈ words b ∨ c ∈ w := by
  by_cases hc : isSpace c = true
  · rw [words_append_cons a b hc, List.mem_append] at h
    rcases h with h | h
    · exact Or.inl h
    · exact Or.inr (Or.inl h)
  · obtain ⟨l, u, v, r, ha, hb, hab⟩ := splitOnP_append isSpace a (c :: b)
    obtain ⟨first, rest, hrest⟩ := List.exists_cons_of_ne_nil (List.splitOnP_ne_nil isSpace b)
    rw [List.splitOnP_cons_eq_if_modifyHead, if_neg hc, hrest, List.modifyHead_cons] at hb
    obtain ⟨rfl, rfl⟩ := List.cons.inj hb
    simp only [words, List.mem_filter, ha, hab, hrest, List.mem_append, List.mem_cons] at h ⊢
    rcases h with ⟨hw | rfl | hw, hne⟩
    · exact Or.inl ⟨Or.inl hw, hne⟩
    · exact Or.inr (Or.inr (by simp))
    · exact Or.inr (Or.inl ⟨Or.inr hw, hne⟩)

/-! ## Searching -/

theorem find_eq_none {pat : Text} : find pat s = none ↔ ¬ pat <:+: s := by
  induction s with
  | nil => simp [find]
  | cons x s ih =>
    unfold find
    split
    · rename_i hpre
      have hinside : pat <:+: x :: s := (List.isPrefixOf_iff_prefix.mp hpre).isInfix
      simp [hinside]
    · rename_i hpre
      rw [List.isPrefixOf_iff_prefix] at hpre
      simp [List.infix_cons_iff, hpre, ih]

/-- The search returns the leftmost occurrence. -/
theorem find_eq_some {pat : Text} (hleft : ∀ a' b', a ++ (pat ++ b) = a' ++ (pat ++ b') → a.length ≤ a'.length) :
    find pat (a ++ (pat ++ b)) = some a.length := by
  induction a with
  | nil =>
    cases hs : pat ++ b with
    | nil =>
      have hpat : pat = [] := (List.append_eq_nil_iff.mp hs).1
      simp [find, hpat]
    | cons x s =>
      have hpre : pat.isPrefixOf (x :: s) := by
        rw [← hs, List.isPrefixOf_iff_prefix]
        exact List.prefix_append pat b
      simp [find, hpre]
  | cons x a ih =>
    have hnot : ¬ pat.isPrefixOf (x :: a ++ (pat ++ b)) := by
      rw [List.isPrefixOf_iff_prefix]
      rintro ⟨t, ht⟩
      have := hleft [] t (by simpa using ht.symm)
      simp at this
    have hrest : find pat (a ++ (pat ++ b)) = some a.length := by
      apply ih
      intro a' b' heq
      have := hleft (x :: a') b' (by rw [List.cons_append, List.cons_append, heq])
      simpa using this
    rw [List.cons_append] at hnot ⊢
    rw [find, if_neg hnot, hrest]
    rfl

/-- What a search finds, it finds as far left as possible. -/
theorem find_spec {pat : Text} {n : ℕ} (h : find pat s = some n) :
    (∃ a b, s = a ++ (pat ++ b) ∧ a.length = n) ∧ ∀ a b, s = a ++ (pat ++ b) → n ≤ a.length := by
  induction s generalizing n with
  | nil =>
    unfold find at h
    split at h
    · rename_i hpat
      cases h
      exact ⟨⟨[], [], by simp [hpat], rfl⟩, fun _ _ _ => Nat.zero_le _⟩
    · cases h
  | cons x s ih =>
    unfold find at h
    split at h
    · rename_i hpre
      obtain ⟨b, hb⟩ := List.isPrefixOf_iff_prefix.mp hpre
      cases h
      exact ⟨⟨[], b, by simpa using hb.symm, rfl⟩, fun _ _ _ => Nat.zero_le _⟩
    · rename_i hpre
      obtain ⟨m, hm, rfl⟩ := Option.map_eq_some_iff.mp h
      obtain ⟨⟨a, b, rfl, rfl⟩, hleft⟩ := ih hm
      refine ⟨⟨x :: a, b, rfl, rfl⟩, ?_⟩
      intro a' b' heq
      cases a' with
      | nil => exact absurd (List.isPrefixOf_iff_prefix.mpr ⟨b', heq.symm⟩) hpre
      | cons y a' =>
        have := hleft a' b' (List.cons.inj heq).2
        simpa using this

/-- Behind the first occurrence of a pattern stands, at the end, what stands behind any other. -/
theorem exists_behind_find (pat a b : Text) : ∃ r pos, find pat (a ++ (pat ++ b)) = some pos ∧
    (a ++ (pat ++ b)).drop (pos + pat.length) = r ++ b ∧ ∀ x ∈ r, x ∈ a ∨ x ∈ pat := by
  cases hfind : find pat (a ++ (pat ++ b)) with
  | none => exact absurd ⟨a, b, by simp⟩ (find_eq_none.mp hfind)
  | some pos =>
    obtain ⟨⟨x, y, heq, rfl⟩, hleft⟩ := find_spec hfind
    have hle : x.length ≤ a.length := hleft a b rfl
    have hdrop : (a ++ (pat ++ b)).drop (x.length + pat.length) = (a ++ pat).drop (x.length + pat.length) ++ b := by
      rw [← List.append_assoc, List.drop_append_of_le_length (by rw [List.length_append]; omega)]
    refine ⟨_, _, rfl, hdrop, fun z hz => ?_⟩
    exact List.mem_append.mp (List.mem_of_mem_drop hz)

/-- A word that occurs in a text occurs in one of its words. -/
theorem exists_infix_of_infix (hw : IsWord w) (h : w <:+: s) : ∃ w' ∈ words s, w <:+: w' := by
  obtain ⟨a, b, rfl⟩ := h
  obtain ⟨l, u, v, r, ha, hb, hab⟩ := splitOnP_append isSpace a w
  rw [List.splitOnP_eq_singleton hw.noSpace] at hb
  obtain ⟨rfl, rfl⟩ := List.cons.inj hb
  obtain ⟨l', u', v', r', ha', -, hab'⟩ := splitOnP_append isSpace (a ++ w) b
  rw [hab] at ha'
  obtain ⟨rfl, hu'⟩ := List.append_inj' ha' rfl
  obtain rfl : u ++ w = u' := by simpa using hu'
  refine ⟨u ++ w ++ v', ?_, ⟨u, v', rfl⟩⟩
  rw [words, hab', List.mem_filter]
  simp [hw.ne_nil]

/-! ## Phrases -/

/-- The words of a phrase with one blank between them and at both ends. -/
def blanked (ks : List Text) : Text := 32 :: ([32].intercalate ks ++ [32])

theorem words_intercalate {ks : List Text} (hks : ∀ k ∈ ks, IsWord k) : words ([32].intercalate ks) = ks := by
  induction ks with
  | nil => rfl
  | cons k ks ih =>
    have hk : words k = [k] := (hks k List.mem_cons_self).words_eq
    have hrest := ih fun k' hk' => hks k' (List.mem_cons_of_mem _ hk')
    cases ks with
    | nil => simpa using hk
    | cons k' ks =>
      rw [List.intercalate_cons_cons, List.append_assoc, List.singleton_append,
        words_append_cons _ _ (by decide), hk, hrest]
      rfl

theorem words_append_blanked {ks : List Text} (hks : ∀ k ∈ ks, IsWord k) (a b : Text) :
    words (a ++ (blanked ks ++ b)) = words a ++ (ks ++ words b) := by
  have hspace : isSpace 32 = true := by decide
  rw [blanked, List.cons_append, words_append_cons _ _ hspace, List.append_assoc, List.singleton_append,
    words_append_cons _ _ hspace, words_intercalate hks]

/-- A phrase whose words are not in a row is not found. -/
theorem find_blanked_eq_none {ks : List Text} (hks : ∀ k ∈ ks, IsWord k) (h : ¬ ks <:+: words s) :
    find (blanked ks) s = none := by
  rw [find_eq_none]
  rintro ⟨a, b, rfl⟩
  apply h
  rw [List.append_assoc, words_append_blanked hks]
  exact ⟨words a, words b, by simp⟩

theorem find_blanked_eq_none_of_notMem {k : Text} {ks : List Text} (hks : ∀ k' ∈ k :: ks, IsWord k')
    (h : k ∉ words s) : find (blanked (k :: ks)) s = none := by
  apply find_blanked_eq_none hks
  intro hinside
  exact h (hinside.subset List.mem_cons_self)

/-- A phrase is found where its words first stand in a row. -/
theorem find_blanked {ks : List Text} (hks : ∀ k ∈ ks, IsWord k) (hne : ks ≠ [])
    (hfirst : ∀ pre post, words a ++ (ks ++ words b) = pre ++ (ks ++ post) →
      (words a).length ≤ pre.length) :
    find (blanked ks) (a ++ (blanked ks ++ b)) = some a.length := by
  obtain ⟨k, ks, rfl⟩ := List.exists_cons_of_ne_nil hne
  have hk := hks k List.mem_cons_self
  obtain ⟨x, k, rfl⟩ := List.exists_cons_of_ne_nil hk.ne_nil
  have hx : isSpace x = false := hk.noSpace x List.mem_cons_self
  obtain ⟨tail, htail⟩ : ∃ tail, blanked ((x :: k) :: ks) = 32 :: x :: tail := by
    cases ks <;> simp [blanked]
  apply find_eq_some
  intro a' b' heq
  by_contra hlt
  -- an earlier occurrence has at least one more word behind it than the given one
  obtain ⟨m, rfl⟩ : a' <+: a :=
    List.prefix_of_prefix_length_le (heq ▸ List.prefix_append a' _) (List.prefix_append a _) (by omega)
  have hm : m ++ (blanked ((x :: k) :: ks) ++ b) = blanked ((x :: k) :: ks) ++ b' := by
    simpa using heq
  have hwords := hfirst (words a') (words b') (by
    rw [← words_append_blanked hks, heq, words_append_blanked hks])
  obtain _ | ⟨y, m⟩ := m
  · simp at hlt
  · rw [htail] at hm
    obtain _ | ⟨z, m⟩ := m
    · simp only [List.cons_append, List.nil_append, List.cons.injEq] at hm
      rw [← hm.2.1] at hx
      exact absurd hx (by decide)
    · simp only [List.cons_append, List.cons.injEq] at hm
      obtain ⟨rfl, rfl, -⟩ := hm
      rw [words_append_cons _ _ (by decide), List.length_append] at hwords
      have hpos := List.length_pos_iff.mpr (words_ne_nil (s := z :: m) List.mem_cons_self hx)
      omega

/-- A phrase is found where its first word first occurs. -/
theorem find_blanked_of_notMem {k : Text} {ks : List Text} (hks : ∀ k' ∈ k :: ks, IsWord k')
    (h : k ∉ words a) :
    find (blanked (k :: ks)) (a ++ (blanked (k :: ks) ++ b)) = some a.length := by
  apply find_blanked hks (by simp)
  intro pre post heq
  by_contra hlt
  obtain ⟨m, hm⟩ : pre <+: words a :=
    List.prefix_of_prefix_length_le (heq ▸ List.prefix_append pre _) (List.prefix_append _ _) (by omega)
  rw [← hm, List.append_assoc, List.append_cancel_left_eq] at heq
  obtain _ | ⟨y, m⟩ := m
  · simp [← hm] at hlt
  · obtain rfl : y = k := by simpa using congrArg List.head? heq
    exact h (hm ▸ by simp)

/-- A phrase of two words is found where they first follow each other. -/
theorem find_blanked_pair {k k' : Text} (hk : IsWord k) (hk' : IsWord k')
    (h : (words a ++ [k]).IsChain fun w w' => ¬ (w = k ∧ w' = k')) :
    find (blanked [k, k']) (a ++ (blanked [k, k'] ++ b)) = some a.length := by
  have hks : ∀ k'' ∈ [k, k'], IsWord k'' := by
    simp [hk, hk']
  apply find_blanked hks (by simp)
  intro pre post heq
  by_contra hlt
  obtain ⟨m, hm⟩ : pre <+: words a :=
    List.prefix_of_prefix_length_le (heq ▸ List.prefix_append pre _) (List.prefix_append _ _) (by omega)
  rw [← hm, List.append_assoc, List.append_cancel_left_eq] at heq
  obtain _ | ⟨y, m⟩ := m
  · simp [← hm] at hlt
  · rw [← hm, List.append_assoc] at h
    have hchain := (List.isChain_append.mp h).2.1
    obtain _ | ⟨z, m⟩ := m
    · simp only [List.cons_append, List.nil_append, List.cons.injEq] at heq
      obtain ⟨rfl, rfl, -⟩ := heq
      simp at hchain
    · simp only [List.cons_append, List.cons.injEq] at heq
      obtain ⟨rfl, rfl, -⟩ := heq
      simp [List.isChain_cons_cons] at hchain

theorem not_infix_pair {k k' : Text} {ws : List Text}
    (h : ws.IsChain fun w w' => ¬ (w = k ∧ w' = k')) : ¬ [k, k'] <:+: ws := by
  rintro ⟨l, r, rfl⟩
  have hmid := (List.isChain_append.mp (List.isChain_append.mp h).1).2.1
  simp at hmid

end Text
