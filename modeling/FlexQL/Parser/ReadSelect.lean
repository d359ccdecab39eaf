import FlexQL.Parser.SelectWords

/-!
# Reading selections back

The clauses of a `SELECT` are found by separate searches. On a text that is laid out on a line each
search finds its own keyword: names are no keywords, and an operand that is one is followed by `AND`
or by the next clause.
-/

namespace FlexQL.Parser

open Text Language

variable {a b g g' s w x y : Text} {c : UInt8} {i : Ident}

/-! ## Clauses on a line -/

/-- What is left on the line of the direction of an order. -/
def directionLine : Option Direction → Language UInt8
  | none => 1
  | some .asc => lineGap + (lineGap - 1) * keyword "ASC"
  | some .desc => (lineGap - 1) * keyword "DESC"

def orderLine : Option OrderTree → Language UInt8
  | none => 1
  | some o => Spacing.line.phrase ["ORDER", "BY"] * exactly o.column.text * directionLine o.direction

theorem blanked_append_mem_starting (ks : List Text) (b : Text) :
    blanked ks ++ b ∈ starting fun c => isSpace c = true := by
  intro x hx
  obtain rfl : 32 = x := by simpa [blanked] using hx
  decide

/-- The parts of a join. -/
theorem mem_joinTexts {j : JoinTree} (h : s ∈ joinTexts .line (some j)) :
    ∃ l₁ ∈ lineGap, ∃ r₁ ∈ lineGap, ∃ l₂ ∈ lineGap, ∃ r₂ ∈ lineGap, ∃ g ∈ lineGap, ∃ g' ∈ lineGap,
      s = l₁ ++ (blanked [str "INNER", str "JOIN"] ++ (r₁ ++ (j.table.text ++ (l₂ ++ (blanked [str "ON"] ++
        (r₂ ++ (j.left.text ++ (g ++ (ch '=' :: (g' ++ j.right.text)))))))))) := by
  simp only [joinTexts, mul_assoc, mem_mul] at h
  obtain ⟨p₁, hp₁, _, ⟨u, hu, _, ⟨p₂, hp₂, _, ⟨n, hn, _, ⟨g, hg, _, ⟨e, he, _, ⟨g', hg', n', hn', rfl⟩, rfl⟩,
    rfl⟩, rfl⟩, rfl⟩, rfl⟩, rfl⟩ := h
  obtain ⟨l₁, hl₁, r₁, hr₁, rfl⟩ := mem_phrase hp₁
  obtain ⟨l₂, hl₂, r₂, hr₂, rfl⟩ := mem_phrase hp₂
  obtain rfl : u = j.table.text := hu
  obtain rfl : n = j.left.text := hn
  obtain rfl : n' = j.right.text := hn'
  obtain rfl : e = [ch '='] := he
  exact ⟨l₁, hl₁, r₁, hr₁, l₂, hl₂, r₂, hr₂, g, hg, g', hg', by simp⟩

theorem mem_conditionsTexts {cs : List Condition} (hne : cs ≠ []) (h : s ∈ conditionsTexts .line cs) :
    ∃ l ∈ lineGap, ∃ r ∈ lineGap, ∃ f, Listed cs (words f) ∧
      s = l ++ (blanked [str "WHERE"] ++ (r ++ f)) := by
  obtain ⟨cond, cs, rfl⟩ := List.exists_cons_of_ne_nil hne
  simp only [conditionsTexts, mem_mul] at h
  obtain ⟨p, hp, f, hf, rfl⟩ := h
  obtain ⟨l, hl, r, hr, rfl⟩ := mem_phrase hp
  exact ⟨l, hl, r, hr, f, listed_words (line_conditions_le _ hf), by simp⟩

theorem mem_orderLine {o : OrderTree} (h : s ∈ orderLine (some o)) :
    ∃ l ∈ lineGap, ∃ r ∈ lineGap, ∃ d ∈ directionLine o.direction,
      s = l ++ (blanked [str "ORDER", str "BY"] ++ (r ++ (o.column.text ++ d))) := by
  simp only [orderLine, mul_assoc, mem_mul] at h
  obtain ⟨p, hp, _, ⟨n, hn, d, hd, rfl⟩, rfl⟩ := h
  obtain ⟨l, hl, r, hr, rfl⟩ := mem_phrase hp
  obtain rfl : n = o.column.text := hn
  exact ⟨l, hl, r, hr, d, hd, by simp⟩

theorem Direction.word_mem (d : Direction) : str d.word ∈ keywords := by
  cases d <;> decide

/-- At most one word is left of the direction. -/
theorem words_directionLine {dir : Option Direction} (h : s ∈ directionLine dir) (a : Text) :
    (dir ≠ some .desc ∧ words (a ++ s) = words a) ∨
      ∃ d w, dir = some d ∧ upper w = str d.word ∧ words (a ++ s) = words a ++ [w] := by
  have hword {d : Direction} (h : s ∈ (lineGap - 1) * keyword d.word) :
      ∃ w, upper w = str d.word ∧ words (a ++ s) = words a ++ [w] := by
    obtain ⟨g, hg, w, hw, rfl⟩ := h
    refine ⟨w, hw, ?_⟩
    change words (a ++ (g ++ w)) = _
    rw [words_append_lineGap hg, (isWord_keyword hw d.word_mem).words_eq]
  match dir with
  | none =>
    obtain rfl : s = [] := h
    exact Or.inl ⟨by simp, by simp⟩
  | some .asc =>
    rcases h with h | h
    · exact Or.inl ⟨by simp, words_append_space (isSpace_of_mem_lineGap h) a⟩
    · obtain ⟨w, hw, hwords⟩ := hword (d := .asc) h
      exact Or.inr ⟨.asc, w, rfl, hw, hwords⟩
  | some .desc =>
    obtain ⟨w, hw, hwords⟩ := hword (d := .desc) h
    exact Or.inr ⟨.desc, w, rfl, hw, hwords⟩

/-- No word of the condition of a join is a keyword. -/
theorem words_on_notMem {left right : Column} (hg : g ∈ gap) (hg' : g' ∈ gap)
    (hw : w ∈ words (left.text ++ (g ++ (ch '=' :: (g' ++ right.text))))) : w ∉ keywords := by
  rw [← List.append_assoc] at hw
  rcases mem_words_append_cons hw with hw | hw | hw
  · rw [words_append_space (isSpace_of_mem_gap hg), left.isWord.words_eq, List.mem_singleton] at hw
    exact hw ▸ left.text_notMem
  · rw [words_space_append (isSpace_of_mem_gap hg'), right.isWord.words_eq, List.mem_singleton] at hw
    exact hw ▸ right.text_notMem
  · exact fun h => notMem_of_mem_keywords h (by decide) hw

theorem isWord_keywords {ks : List Text} (h : ∀ k ∈ ks, k ∈ keywords) : ∀ k ∈ ks, IsWord k :=
  fun k hk => isWord_of_mem_keywords (h k hk)

/-- Which keywords stand in the clauses before the conditions. -/
theorem words_join_mem {join : Option JoinTree} (hJ : s ∈ joinTexts .line join) (hw : w ∈ words s) :
    w ∉ keywords ∨ w ∈ [str "INNER", str "JOIN", str "ON"] := by
  cases join with
  | none =>
    obtain rfl : s = [] := hJ
    simp at hw
  | some j =>
    obtain ⟨l₁, hl₁, r₁, hr₁, l₂, hl₂, r₂, hr₂, g, hg, g', hg', rfl⟩ := mem_joinTexts hJ
    rw [words_append_blanked (isWord_keywords (by decide)), words_of_space (isSpace_of_mem_lineGap hl₁),
      words_space_append (isSpace_of_mem_lineGap hr₁), ← List.append_assoc j.table.text,
      words_append_blanked (isWord_keywords (by decide)), words_append_space (isSpace_of_mem_lineGap hl₂), j.table.isWord.words_eq,
      words_space_append (isSpace_of_mem_lineGap hr₂)] at hw
    simp only [List.nil_append, List.mem_append, List.mem_cons, List.not_mem_nil, or_false] at hw ⊢
    rcases hw with (rfl | rfl) | rfl | rfl | hw
    · simp
    · simp
    · exact Or.inl j.table.text_notMem
    · simp
    · exact Or.inl (words_on_notMem (lineGap_le_gap hg) (lineGap_le_gap hg') hw)

theorem words_orderLine_mem {order : Option OrderTree} (hO : s ∈ orderLine order) (hw : w ∈ words s) :
    w ∉ keywords ∨ w ∈ [str "ORDER", str "BY", str "ASC", str "DESC"] := by
  cases order with
  | none =>
    obtain rfl : s = [] := hO
    simp at hw
  | some o =>
    obtain ⟨l, hl, r, hr, d, hd, rfl⟩ := mem_orderLine hO
    rw [words_append_blanked (isWord_keywords (by decide)), words_of_space (isSpace_of_mem_lineGap hl),
      words_space_append (isSpace_of_mem_lineGap hr)] at hw
    rcases words_directionLine hd o.column.text with ⟨-, hwords⟩ | ⟨dir, w', -, hw', hwords⟩
    · rw [hwords, o.column.isWord.words_eq] at hw
      simp only [List.nil_append, List.mem_append, List.mem_cons, List.not_mem_nil, or_false] at hw ⊢
      rcases hw with (rfl | rfl) | rfl
      · simp
      · simp
      · exact Or.inl o.column.text_notMem
    · rw [hwords, o.column.isWord.words_eq] at hw
      simp only [List.nil_append, List.mem_append, List.mem_cons, List.not_mem_nil, or_false] at hw ⊢
      rcases hw with (rfl | rfl) | rfl | rfl
      · simp
      · simp
      · exact Or.inl o.column.text_notMem
      · by_cases hkeyword : w ∈ keywords
        · rw [upper_of_mem_keywords hkeyword] at hw'
          cases dir <;> simp [hw', Direction.word]
        · exact Or.inl hkeyword

theorem words_conditions_eq {cs : List Condition} (hW : s ∈ conditionsTexts .line cs) :
    (cs = [] ∧ s = []) ∨ ∃ ws, Listed cs ws ∧ words s = str "WHERE" :: ws := by
  by_cases hcs : cs = []
  · subst hcs
    exact Or.inl ⟨rfl, hW⟩
  · obtain ⟨l, hl, r, hr, f, hf, rfl⟩ := mem_conditionsTexts hcs hW
    refine Or.inr ⟨words f, hf, ?_⟩
    rw [words_append_blanked (isWord_keywords (by decide)), words_of_space (isSpace_of_mem_lineGap hl),
      words_space_append (isSpace_of_mem_lineGap hr)]
    rfl

theorem joinTexts_le_starting (join : Option JoinTree) :
    joinTexts .line join ≤ starting fun c => isSpace c = true := by
  intro s hs
  cases join with
  | none => exact one_le_starting hs
  | some j =>
    obtain ⟨l, hl, -, -, -, -, -, -, -, -, -, -, rfl⟩ := mem_joinTexts hs
    exact lineGap_append_mem_starting hl (blanked_append_mem_starting _ _)

theorem conditionsTexts_le_starting (cs : List Condition) :
    conditionsTexts .line cs ≤ starting fun c => isSpace c = true := by
  intro s hs
  by_cases hcs : cs = []
  · subst hcs
    exact one_le_starting hs
  · obtain ⟨l, hl, -, -, -, -, rfl⟩ := mem_conditionsTexts hcs hs
    exact lineGap_append_mem_starting hl (blanked_append_mem_starting _ _)

theorem orderLine_le_starting (order : Option OrderTree) :
    orderLine order ≤ starting fun c => isSpace c = true := by
  intro s hs
  cases order with
  | none => exact one_le_starting hs
  | some o =>
    obtain ⟨l, hl, -, -, -, -, rfl⟩ := mem_orderLine hs
    exact lineGap_append_mem_starting hl (blanked_append_mem_starting _ _)

/-! ## The searches -/

theorem behind_of_find {k : Text} (h : find k (a ++ (k ++ b)) = some a.length) :
    behind k (a ++ (k ++ b)) = some b := by
  simp [behind, h]

theorem before_of_find {k : Text} (h : find k (a ++ (k ++ b)) = some a.length) :
    before k (a ++ (k ++ b)) = a := by
  simp [before, h]

theorem isChain_of_notMem {ws : List Text} {k k' : Text} (h : k ∉ ws) :
    ws.IsChain fun w w' => ¬ (w = k ∧ w' = k') := by
  induction ws with
  | nil => exact List.isChain_nil
  | cons w ws ih =>
    rw [List.mem_cons, not_or] at h
    rw [List.isChain_cons]
    exact ⟨fun y _ hy => h.1 hy.1.symm, ih h.2⟩

theorem isChain_append_of_head {ws ws' : List Text} {k k' : Text}
    (h : ws.IsChain fun w w' => ¬ (w = k ∧ w' = k')) (h' : ws'.IsChain fun w w' => ¬ (w = k ∧ w' = k'))
    (hhead : ∀ w, ws'.head? = some w → w ≠ k') :
    (ws ++ ws').IsChain fun w w' => ¬ (w = k ∧ w' = k') :=
  List.isChain_append.mpr ⟨h, h', fun _ _ y hy hxy => hhead y hy hxy.2⟩

section Line

variable {t : SelectTree} {r J W O : Text} (hr : r ∈ lineGap) (hJ : J ∈ joinTexts .line t.join)
  (hW : W ∈ conditionsTexts .line t.conditions) (hO : O ∈ orderLine t.order)

/-- The words of a clause phrase do not stand in a row before their clause. -/
theorem isChain_clauses {k k' : Text} (hk : k ∈ keywords) (hk' : k' ∈ keywords)
    (hJ : k ∉ words J) (hW : W ∈ conditionsTexts .line t.conditions)
    (hne : k ∉ [str "AND", str "WHERE"]) (hne' : k' ∉ [str "AND", str "WHERE"]) :
    (t.table.text :: (words J ++ words W)).IsChain fun w w' => ¬ (w = k ∧ w' = k') := by
  simp only [List.mem_cons, List.not_mem_nil, or_false, not_or] at hne hne'
  have hWchain : (words W).IsChain fun w w' => ¬ (w = k ∧ w' = k') := by
    rcases words_conditions_eq hW with ⟨-, rfl⟩ | ⟨ws, hlisted, hwords⟩
    · exact List.isChain_nil
    · rw [hwords, List.isChain_cons]
      exact ⟨fun y _ hy => hne.2 hy.1.symm, isChain_of_listed hk hk' hne.1 hne'.1 hlisted⟩
  have hhead : ∀ w, (words W).head? = some w → w ≠ k' := by
    rcases words_conditions_eq hW with ⟨-, rfl⟩ | ⟨ws, -, hwords⟩
    · simp
    · rw [hwords]
      rintro w hw rfl
      exact hne'.2 (by simpa using hw.symm)
  rw [List.isChain_cons]
  refine ⟨fun y _ hy => t.table.text_notMem (hy.1 ▸ hk), ?_⟩
  exact isChain_append_of_head (isChain_of_notMem hJ) hWchain hhead

include hr hJ in
theorem words_table_join (hs : s ∈ starting fun c => isSpace c = true) :
    words (r ++ (t.table.text ++ (J ++ s))) = t.table.text :: (words J ++ words s) := by
  have hJs : J ++ s ∈ starting fun c => isSpace c = true :=
    mul_le_starting (joinTexts_le_starting _) le_rfl (append_mem_mul hJ hs)
  rw [words_space_append (isSpace_of_mem_lineGap hr), words_append_of_starting hJs,
    words_append_of_starting hs, t.table.isWord.words_eq]
  rfl

include hr hJ hW in
theorem words_rest (hO : O ∈ starting fun c => isSpace c = true) :
    words (r ++ (t.table.text ++ (J ++ (W ++ O)))) =
      t.table.text :: (words J ++ (words W ++ words O)) := by
  rw [words_table_join hr hJ (mul_le_starting (conditionsTexts_le_starting _) le_rfl
    (append_mem_mul hW hO)), words_append_of_starting hO]

theorem lineGap_le_starting : lineGap ≤ starting fun c => isSpace c = true :=
  fun _ hg x hx => isSpace_of_mem_lineGap hg x (List.mem_of_mem_head? hx)

include hr hJ hW in
theorem words_before_order {l : Text} (hl : l ∈ lineGap) :
    words (r ++ (t.table.text ++ (J ++ (W ++ l)))) = t.table.text :: (words J ++ words W) := by
  rw [words_rest hr hJ hW (lineGap_le_starting hl), words_of_space (isSpace_of_mem_lineGap hl),
    List.append_nil]

include hJ hW in
theorem isChain_order :
    (t.table.text :: (words J ++ words W)).IsChain fun w w' => ¬ (w = str "ORDER" ∧ w' = str "BY") := by
  apply isChain_clauses (by decide) (by decide) _ hW (by decide) (by decide)
  intro h
  exact absurd (words_join_mem hJ h) (by decide)

/-- The order is read off its words. -/
theorem parseOrder_of_behind {o : OrderTree} {d : Text} (hd : d ∈ directionLine o.direction)
    (hbehind : behind (str " ORDER BY ") s = some (r ++ (o.column.text ++ d))) (hr : r ∈ lineGap) :
    parseOrder s = some o.statement := by
  have hspace : words (r ++ (o.column.text ++ d)) = words (o.column.text ++ d) :=
    words_space_append (isSpace_of_mem_lineGap hr) _
  have hcolumn := stripDelimiters_text o.column
  rcases words_directionLine hd o.column.text with ⟨hdir, hwords⟩ | ⟨dir, w, hdir, hw, hwords⟩
  · rw [hwords, o.column.isWord.words_eq] at hspace
    obtain ⟨s', hext, hs'⟩ := extract_of_words hspace
    simp [parseOrder, hbehind, hext, extract_of_words_nil hs', hcolumn, OrderTree.statement, hdir]
  · rw [hwords, o.column.isWord.words_eq] at hspace
    obtain ⟨s', hext, hs'⟩ := extract_of_words hspace
    obtain ⟨s'', hext', -⟩ := extract_of_words hs'
    have hstrip : stripDelimiters w = str dir.word := by
      rw [← hw]
      apply stripDelimiters_name
      intro x hx
      rw [← isNameByte_toUpper]
      have hmem : toUpper x ∈ str dir.word := hw ▸ List.mem_map_of_mem hx
      exact isNameByte_of_mem_keywords dir.word_mem _ hmem
    have hdesc : str dir.word = str "DESC" ↔ dir = .desc := by
      cases dir <;> decide
    simp [parseOrder, hbehind, hext, hext', hcolumn, hstrip, OrderTree.statement, hdir, hdesc]

include hr hJ hW hO in
theorem parseOrder_line : parseOrder (r ++ (t.table.text ++ (J ++ (W ++ O)))) =
    t.order.map OrderTree.statement := by
  cases horder : t.order with
  | none =>
    rw [horder] at hO
    obtain rfl : O = [] := hO
    have hfind : find (blanked [str "ORDER", str "BY"]) (r ++ (t.table.text ++ (J ++ (W ++ [])))) = none := by
      apply find_blanked_eq_none (isWord_keywords (by decide))
      rw [words_rest hr hJ hW (one_le_starting rfl), words_nil, List.append_nil]
      exact not_infix_pair (isChain_order hJ hW)
    have hbehind : behind (str " ORDER BY ") (r ++ (t.table.text ++ (J ++ (W ++ [])))) = none := by
      rw [behind, show str " ORDER BY " = blanked [str "ORDER", str "BY"] by decide, hfind]
      rfl
    rw [parseOrder, hbehind]
    rfl
  | some o =>
    rw [horder] at hO
    obtain ⟨l, hl, r', hr', d, hd, rfl⟩ := mem_orderLine hO
    have hfind := find_blanked_pair (a := r ++ (t.table.text ++ (J ++ (W ++ l))))
      (b := r' ++ (o.column.text ++ d)) (isWord_of_mem_keywords (show str "ORDER" ∈ keywords by decide))
      (isWord_of_mem_keywords (show str "BY" ∈ keywords by decide)) (by
        rw [words_before_order hr hJ hW hl]
        exact isChain_append_of_head (isChain_order hJ hW) (List.isChain_singleton _) (by decide))
    have hbehind := behind_of_find hfind
    apply parseOrder_of_behind hd _ hr'
    rw [← hbehind]
    simp [show str " ORDER BY " = blanked [str "ORDER", str "BY"] by decide]

theorem length_le_of_listed {cs : List Condition} {ws : List Text} (h : Listed cs ws) :
    cs.length ≤ ws.length := by
  induction cs generalizing ws with
  | nil => simp
  | cons cond cs ih =>
    cases cs with
    | nil =>
      obtain rfl : ws = _ := h
      simp
    | cons cond' cs =>
      obtain ⟨k, ws, -, hlisted, rfl⟩ := h
      have hle := ih hlisted
      simp only [List.length_cons] at hle ⊢
      omega

/-- The order is cut off from the conditions. -/
theorem before_order {cs : List Condition} {order : Option OrderTree} {f : Text} (hr : r ∈ lineGap)
    (hf : Listed cs (words f)) (hO : O ∈ orderLine order) :
    words (before (str " ORDER BY ") (r ++ (f ++ O))) = words f := by
  have hchain : (words f).IsChain fun w w' => ¬ (w = str "ORDER" ∧ w' = str "BY") :=
    isChain_of_listed (by decide) (by decide) (by decide) (by decide) hf
  have hr' := isSpace_of_mem_lineGap hr
  rw [show str " ORDER BY " = blanked [str "ORDER", str "BY"] by decide]
  cases order with
  | none =>
    obtain rfl : O = [] := hO
    have hfind : find (blanked [str "ORDER", str "BY"]) (r ++ (f ++ [])) = none := by
      apply find_blanked_eq_none (isWord_keywords (by decide))
      rw [words_space_append hr', List.append_nil]
      exact not_infix_pair hchain
    rw [before, hfind]
    change words (r ++ (f ++ [])) = _
    rw [words_space_append hr', List.append_nil]
  | some o =>
    obtain ⟨l, hl, r', hr'', d, hd, rfl⟩ := mem_orderLine hO
    have hwords : words (r ++ (f ++ l)) = words f := by
      rw [words_space_append hr', words_append_space (isSpace_of_mem_lineGap hl)]
    have hfind := find_blanked_pair (a := r ++ (f ++ l)) (b := r' ++ (o.column.text ++ d))
      (isWord_of_mem_keywords (show str "ORDER" ∈ keywords by decide))
      (isWord_of_mem_keywords (show str "BY" ∈ keywords by decide)) (by
        rw [hwords]
        exact isChain_append_of_head hchain (List.isChain_singleton _) (by decide))
    have hbefore := before_of_find hfind
    rw [← hwords, ← hbefore]
    simp

/-- The conditions that are read behind `FROM`. -/
def filtersOf (rest : Text) : List WhereClause :=
  match behind (str " WHERE ") rest with
  | none => []
  | some clause =>
    parseFilters (before (str " ORDER BY ") clause).length (before (str " ORDER BY ") clause)

include hr hJ hW hO in
theorem filtersOf_line :
    filtersOf (r ++ (t.table.text ++ (J ++ (W ++ O)))) = t.conditions.map Condition.statement := by
  have hJ' : str "WHERE" ∉ words J := by
    intro h
    exact absurd (words_join_mem hJ h) (by decide)
  have htable : str "WHERE" ≠ t.table.text := fun h => t.table.text_notMem (h ▸ by decide)
  rw [filtersOf, show str " WHERE " = blanked [str "WHERE"] by decide]
  by_cases hcs : t.conditions = []
  · rw [hcs] at hW
    obtain rfl : W = [] := hW
    have hO' : str "WHERE" ∉ words O := by
      intro h
      exact absurd (words_orderLine_mem hO h) (by decide)
    have hfind : find (blanked [str "WHERE"]) (r ++ (t.table.text ++ (J ++ ([] ++ O)))) = none := by
      apply find_blanked_eq_none_of_notMem (isWord_keywords (by decide))
      rw [List.nil_append, words_table_join hr hJ (orderLine_le_starting _ hO)]
      simp [htable, hJ', hO']
    rw [behind, hfind, hcs]
    rfl
  · obtain ⟨l, hl, r', hr', f, hf, rfl⟩ := mem_conditionsTexts hcs hW
    have hfind := find_blanked_of_notMem (a := r ++ (t.table.text ++ (J ++ l))) (b := r' ++ (f ++ O))
      (isWord_keywords (show ∀ k ∈ [str "WHERE"], k ∈ keywords by decide)) (by
        rw [words_table_join hr hJ (lineGap_le_starting hl), words_of_space (isSpace_of_mem_lineGap hl)]
        simp [htable, hJ'])
    have hbehind := behind_of_find hfind
    have hclause := before_order hr' hf hO
    have htext : r ++ (t.table.text ++ (J ++ ((l ++ (blanked [str "WHERE"] ++ (r' ++ f))) ++ O))) =
        (r ++ (t.table.text ++ (J ++ l))) ++ (blanked [str "WHERE"] ++ (r' ++ (f ++ O))) := by
      simp
    rw [htext, hbehind]
    apply parseFilters_of_listed (hclause ▸ hf)
    calc t.conditions.length ≤ (words f).length := length_le_of_listed hf
      _ = (words (before (str " ORDER BY ") (r' ++ (f ++ O)))).length := by rw [hclause]
      _ ≤ _ := length_words_le _

/-- The text that is searched for the columns of a join. -/
def onCondition (condPart : Text) : Text :=
  match find (str " WHERE ") condPart with
  | some pos => condPart.take pos
  | none => before (str " ORDER BY ") condPart

theorem parseJoin_eq {p : Text} {n e : ℕ} (hbehind : behind (str " INNER JOIN ") s = some p)
    (hon : find (str " ON ") p = some n) (hidx : (onCondition (p.drop (n + 4))).idxOf? (ch '=') = some e) :
    parseJoin s = some
      { table := stripDelimiters (p.take n)
        onLeft := stripDelimiters ((onCondition (p.drop (n + 4))).take e)
        onRight := stripDelimiters ((onCondition (p.drop (n + 4))).drop (e + 1)) } := by
  unfold onCondition at hidx ⊢
  cases hwhere : find (str " WHERE ") (p.drop (n + 4)) with
  | none =>
    simp only [hwhere] at hidx ⊢
    simp [parseJoin, hbehind, hon, hwhere, hidx]
  | some pos =>
    simp only [hwhere] at hidx ⊢
    simp [parseJoin, hbehind, hon, hwhere, hidx]

/-- The condition of a join ends where the next clause begins. -/
theorem onCond_line {cs : List Condition} {order : Option OrderTree} {cond : Text} (hr : r ∈ lineGap)
    (hcond : ∀ w ∈ words cond, w ∉ keywords) (hW : W ∈ conditionsTexts .line cs) (hO : O ∈ orderLine order) :
    ∃ l ∈ lineGap, onCondition (r ++ (cond ++ (W ++ O))) = r ++ (cond ++ l) := by
  have hnot {k l : Text} (hk : k ∈ keywords) (hl : l ∈ lineGap) : k ∉ words (r ++ (cond ++ l)) := by
    rw [words_space_append (isSpace_of_mem_lineGap hr), words_append_space (isSpace_of_mem_lineGap hl)]
    exact fun h => hcond k h hk
  rw [onCondition, show str " WHERE " = blanked [str "WHERE"] by decide,
    show str " ORDER BY " = blanked [str "ORDER", str "BY"] by decide]
  by_cases hcs : cs = []
  · subst hcs
    obtain rfl : W = [] := hW
    have hwhere : str "WHERE" ∉ words (r ++ (cond ++ ([] ++ O))) := by
      rw [List.nil_append, words_space_append (isSpace_of_mem_lineGap hr),
        words_append_of_starting (orderLine_le_starting _ hO), List.mem_append, not_or]
      exact ⟨fun h => hcond _ h (by decide), fun h => absurd (words_orderLine_mem hO h) (by decide)⟩
    rw [find_blanked_eq_none_of_notMem (isWord_keywords (by decide)) hwhere]
    have horderBy : ∀ k ∈ [str "ORDER", str "BY"], IsWord k := isWord_keywords (by decide)
    cases order with
    | none =>
      obtain rfl : O = [] := hO
      have hfind := find_blanked_eq_none_of_notMem horderBy (hnot (by decide) (one_le_within rfl))
      refine ⟨[], one_le_within rfl, ?_⟩
      change before _ (r ++ (cond ++ [])) = _
      rw [before, hfind]
    | some o =>
      obtain ⟨l, hl, r', -, d, -, rfl⟩ := mem_orderLine hO
      have hfind := find_blanked_of_notMem (b := r' ++ (o.column.text ++ d)) horderBy (hnot (by decide) hl)
      refine ⟨l, hl, ?_⟩
      rw [← before_of_find hfind]
      simp
  · obtain ⟨l, hl, r', -, f, -, rfl⟩ := mem_conditionsTexts hcs hW
    have hfind := find_blanked_of_notMem (b := r' ++ (f ++ O))
      (isWord_keywords (show ∀ k ∈ [str "WHERE"], k ∈ keywords by decide)) (hnot (by decide) hl)
    have htext : r ++ (cond ++ ((l ++ (blanked [str "WHERE"] ++ (r' ++ f))) ++ O)) =
        (r ++ (cond ++ l)) ++ (blanked [str "WHERE"] ++ (r' ++ (f ++ O))) := by
      simp
    refine ⟨l, hl, ?_⟩
    rw [htext, hfind]
    exact List.take_left' rfl

include hr hW hO in
theorem parseJoin_none (hJ : t.join = none) :
    parseJoin (r ++ (t.table.text ++ (W ++ O))) = none := by
  have hJ' : ([] : Text) ∈ joinTexts .line t.join := hJ ▸ rfl
  have hO' (w : Text) (hw : w ∈ words O) : w ≠ str "INNER" ∧ w ≠ str "JOIN" := by
    constructor
    · rintro rfl
      exact absurd (words_orderLine_mem hO hw) (by decide)
    · rintro rfl
      exact absurd (words_orderLine_mem hO hw) (by decide)
  have hwords : words (r ++ (t.table.text ++ (W ++ O))) = (t.table.text :: words W) ++ words O :=
    words_rest hr hJ' hW (orderLine_le_starting _ hO)
  have hfind : find (blanked [str "INNER", str "JOIN"]) (r ++ (t.table.text ++ (W ++ O))) = none := by
    apply find_blanked_eq_none (isWord_keywords (by decide))
    rw [hwords]
    apply not_infix_pair
    apply isChain_append_of_head
    · exact isChain_clauses (J := []) (by decide) (by decide) (by simp) hW (by decide) (by decide)
    · exact isChain_of_notMem fun h => (hO' _ h).1 rfl
    · exact fun w hw => (hO' w (List.mem_of_mem_head? hw)).2
  rw [parseJoin, behind, show str " INNER JOIN " = blanked [str "INNER", str "JOIN"] by decide, hfind]
  rfl

/-- The two columns of a join stand around the first `=`. -/
theorem parseJoin_of_behind {j : JoinTree} {l₁ r₁ l₂ r₂ rest : Text} (hr₁ : r₁ ∈ lineGap)
    (hl₂ : l₂ ∈ lineGap) (hr₂ : r₂ ∈ lineGap) (hg : g ∈ lineGap) (hg' : g' ∈ lineGap) (hl₁ : l₁ ∈ lineGap)
    (hbehind : behind (str " INNER JOIN ") s =
      some ((r₁ ++ (j.table.text ++ l₂)) ++ (blanked [str "ON"] ++ rest)))
    (honCond : onCondition rest =
      r₂ ++ ((j.left.text ++ (g ++ (ch '=' :: (g' ++ j.right.text)))) ++ l₁)) :
    parseJoin s = some j.statement := by
  have hon : find (str " ON ") ((r₁ ++ (j.table.text ++ l₂)) ++ (blanked [str "ON"] ++ rest)) =
      some (r₁ ++ (j.table.text ++ l₂)).length := by
    rw [show str " ON " = blanked [str "ON"] by decide]
    apply find_blanked_of_notMem (isWord_keywords (by decide))
    rw [words_space_append (isSpace_of_mem_lineGap hr₁), words_append_space (isSpace_of_mem_lineGap hl₂),
      j.table.isWord.words_eq, List.mem_singleton]
    exact fun h => j.table.text_notMem (h ▸ by decide)
  have hdrop : ((r₁ ++ (j.table.text ++ l₂)) ++ (blanked [str "ON"] ++ rest)).drop
      ((r₁ ++ (j.table.text ++ l₂)).length + 4) = rest := by
    rw [← List.append_assoc _ _ rest]
    apply List.drop_left'
    rw [List.length_append]
    rfl
  have htable : stripDelimiters (r₁ ++ (j.table.text ++ l₂)) = j.table.caps :=
    stripDelimiters_column ⟨none, j.table⟩ (lineGap_le_gap hr₁) (lineGap_le_gap hl₂)
  have hequal : r₂ ++ ((j.left.text ++ (g ++ (ch '=' :: (g' ++ j.right.text)))) ++ l₁) =
      (r₂ ++ (j.left.text ++ g)) ++ ch '=' :: (g' ++ (j.right.text ++ l₁)) := by
    simp
  have hgap {g : Text} (hg : g ∈ lineGap) : ch '=' ∉ g := fun h => absurd (hg _ h).1 (by decide)
  have hidx := idxOf?_append_cons (a := r₂ ++ (j.left.text ++ g)) (c := ch '=') (by
    simp only [List.mem_append, not_or]
    exact ⟨hgap hr₂, j.left.notMem (by decide) (by decide), hgap hg⟩) (g' ++ (j.right.text ++ l₁))
  have hright : ((r₂ ++ (j.left.text ++ g)) ++ ch '=' :: (g' ++ (j.right.text ++ l₁))).drop
      ((r₂ ++ (j.left.text ++ g)).length + 1) = g' ++ (j.right.text ++ l₁) := by
    rw [List.append_cons]
    apply List.drop_left'
    rw [List.length_append]
    rfl
  rw [parseJoin_eq hbehind hon (by rw [hdrop, honCond, hequal, hidx]), hdrop, honCond, hequal, hright,
    List.take_left' rfl, List.take_left' rfl, htable,
    stripDelimiters_column j.left (lineGap_le_gap hr₂) (lineGap_le_gap hg),
    stripDelimiters_column j.right (lineGap_le_gap hg') (lineGap_le_gap hl₁)]
  rfl

include hr hJ hW hO in
theorem parseJoin_line : parseJoin (r ++ (t.table.text ++ (J ++ (W ++ O)))) =
    t.join.map JoinTree.statement := by
  cases hjoin : t.join with
  | none =>
    rw [hjoin] at hJ
    obtain rfl : J = [] := hJ
    rw [List.nil_append, parseJoin_none hr hW hO hjoin]
    rfl
  | some j =>
    rw [hjoin] at hJ
    obtain ⟨l₁, hl₁, r₁, hr₁, l₂, hl₂, r₂, hr₂, g, hg, g', hg', rfl⟩ := mem_joinTexts hJ
    obtain ⟨l, hl, honCond⟩ := onCond_line hr₂ (fun w hw => words_on_notMem (lineGap_le_gap hg) (lineGap_le_gap hg') hw) hW hO
    have hfind := find_blanked_of_notMem (a := r ++ (t.table.text ++ l₁))
      (b := (r₁ ++ (j.table.text ++ l₂)) ++ (blanked [str "ON"] ++ (r₂ ++ ((j.left.text ++ (g ++ (ch '=' ::
        (g' ++ j.right.text)))) ++ (W ++ O)))))
      (isWord_keywords (show ∀ k ∈ [str "INNER", str "JOIN"], k ∈ keywords by decide)) (by
        rw [words_space_append (isSpace_of_mem_lineGap hr), words_append_space (isSpace_of_mem_lineGap hl₁),
          t.table.isWord.words_eq, List.mem_singleton]
        exact fun h => t.table.text_notMem (h ▸ by decide))
    apply parseJoin_of_behind hr₁ hl₂ hr₂ hg hg' hl _ honCond
    rw [show str " INNER JOIN " = blanked [str "INNER", str "JOIN"] by decide, ← behind_of_find hfind]
    simp

theorem parseSelect_eq {line rest : Text} {n : ℕ} (hline : rest.takeWhile (· ≠ ch '\n') = line)
    (hfrom : find (str " FROM ") line = some n) :
    parseSelect rest =
      { columns := (getLines (ch ',') (line.take n)).map stripDelimiters
        tableName := ((extract (line.drop (n + 6))).map fun p => stripDelimiters p.1).getD []
        filters := filtersOf (line.drop (n + 6))
        join := (parseJoin (line.drop (n + 6))).getD {}
        orderBy := (parseOrder (line.drop (n + 6))).getD {}
        hasJoin := (parseJoin (line.drop (n + 6))).isSome
        hasOrder := (parseOrder (line.drop (n + 6))).isSome } := by
  subst hline
  unfold parseSelect
  simp only [hfrom]
  cases extract ((rest.takeWhile (· ≠ ch '\n')).drop (n + 6)) <;> rfl

include hr hJ hW hO in
theorem parseSelect_line {A rest : Text} (hA : A ∈ sepBy comma (t.items.map (Item.texts .free)))
    (hline : rest.takeWhile (· ≠ ch '\n') =
      A ++ (blanked [str "FROM"] ++ (r ++ (t.table.text ++ (J ++ (W ++ O)))))) :
    parseSelect rest = t.statement := by
  have hfrom : find (str " FROM ")
      (A ++ (blanked [str "FROM"] ++ (r ++ (t.table.text ++ (J ++ (W ++ O)))))) = some A.length := by
    rw [show str " FROM " = blanked [str "FROM"] by decide]
    apply find_blanked_of_notMem (isWord_keywords (by decide))
    exact fun h => words_items_notMem hA h (by decide)
  have hrest : (A ++ (blanked [str "FROM"] ++ (r ++ (t.table.text ++ (J ++ (W ++ O)))))).drop
      (A.length + 6) = r ++ (t.table.text ++ (J ++ (W ++ O))) := by
    rw [← List.append_assoc]
    apply List.drop_left'
    rw [List.length_append]
    rfl
  have hwords := words_rest hr hJ hW (orderLine_le_starting _ hO)
  obtain ⟨s, hext, -⟩ := extract_of_words hwords
  have htable : stripDelimiters t.table.text = t.table.caps := stripDelimiters_name t.table.nameBytes
  rw [parseSelect_eq hline hfrom, hrest, List.take_left' rfl, map_stripDelimiters t.items_ne_nil hA,
    filtersOf_line hr hJ hW hO, parseJoin_line hr hJ hW hO, parseOrder_line hr hJ hW hO]
  simp [hext, htable, SelectTree.statement]

end Line

/-! ## The line of a selection -/

/-- No line break. -/
def unbroken : Language UInt8 := within (· ≠ ch '\n')

theorem lineGap_le_unbroken : lineGap ≤ unbroken := fun _ hg b hb => (hg b hb).2

theorem exactly_le_unbroken (hw : IsWord w) : exactly w ≤ unbroken := by
  rintro _ rfl b hb rfl
  exact absurd (hw.noSpace _ hb) (by decide)

theorem keyword_le_unbroken {k : String} (hk : str k ∈ keywords) : keyword k ≤ unbroken := by
  rintro w hw b hb rfl
  exact absurd ((isWord_keyword hw hk).noSpace _ hb) (by decide)

theorem phrase_le_unbroken {ks : List String} (hks : ch '\n' ∉ blanked (ks.map str)) :
    Spacing.line.phrase ks ≤ unbroken := by
  refine mul_le_within (mul_le_within lineGap_le_unbroken ?_) lineGap_le_unbroken
  rintro _ rfl b hb rfl
  exact hks hb

theorem items_le_unbroken (items : List Item) :
    sepBy comma (items.map (Item.texts .line)) ≤ unbroken := by
  apply sepBy_le_within
  · rintro _ rfl b hb rfl
    exact absurd hb (by decide)
  · intro l hl
    obtain ⟨item, -, rfl⟩ := List.mem_map.mp hl
    exact mul_le_within (mul_le_within lineGap_le_unbroken (exactly_le_unbroken item.isWord))
      lineGap_le_unbroken

theorem joinTexts_le_unbroken (join : Option JoinTree) : joinTexts .line join ≤ unbroken := by
  cases join with
  | none => exact one_le_within
  | some j =>
    exact mul_le_within (mul_le_within (mul_le_within (mul_le_within (mul_le_within (mul_le_within
      (mul_le_within (phrase_le_unbroken (by decide)) (exactly_le_unbroken j.table.isWord))
      (phrase_le_unbroken (by decide))) (exactly_le_unbroken j.left.isWord)) lineGap_le_unbroken)
      (exactly_le_unbroken Op.eq.isWord)) lineGap_le_unbroken)
      (exactly_le_unbroken j.right.isWord)

theorem conditionsTexts_le_unbroken (cs : List Condition) : conditionsTexts .line cs ≤ unbroken := by
  have hgap : Spacing.line.gap - 1 ≤ unbroken := fun _ hg => lineGap_le_unbroken hg.1
  cases cs with
  | nil => exact one_le_within
  | cons cond cs =>
    apply mul_le_within (phrase_le_unbroken (by decide))
    apply sepBy_le_within
    · exact mul_le_within (mul_le_within hgap (keyword_le_unbroken (by decide))) hgap
    · intro l hl
      obtain ⟨cond, -, rfl⟩ := List.mem_map.mp hl
      exact mul_le_within (mul_le_within (mul_le_within (mul_le_within
        (exactly_le_unbroken cond.column.isWord) hgap) (exactly_le_unbroken cond.op.isWord)) hgap)
        (exactly_le_unbroken cond.operand.isWord)

theorem takeWhile_unbroken (ha : a ∈ unbroken) (b : Text) :
    (a ++ b).takeWhile (· ≠ ch '\n') = a ++ b.takeWhile (· ≠ ch '\n') :=
  List.takeWhile_append_of_pos fun x hx => decide_eq_true (ha x hx)

/-- A line break before the direction cuts it off; only `ASC` may stand behind one. -/
theorem takeWhile_direction {dir : Option Direction} (h : s ∈ directionTexts .line dir) :
    s.takeWhile (· ≠ ch '\n') ∈ directionLine dir := by
  have hwhole (hs : s ∈ unbroken) : s.takeWhile (· ≠ ch '\n') = s := by
    simpa using takeWhile_unbroken hs []
  match dir with
  | none =>
    obtain rfl : s = [] := h
    rfl
  | some .asc =>
    obtain ⟨g, hg, w, hw, rfl⟩ := h
    change (g ++ w).takeWhile (· ≠ ch '\n') ∈ _
    by_cases hbreak : ch '\n' ∈ g
    · obtain ⟨l, l', rfl, hl⟩ := List.eq_append_cons_of_mem hbreak
      have hl' : l ∈ lineGap := fun b hb => ⟨hg.1 b (by simp [hb]), fun h => hl (h ▸ hb)⟩
      rw [List.append_assoc, takeWhile_unbroken (lineGap_le_unbroken hl'), List.cons_append,
        List.takeWhile_cons_of_neg (by simp), List.append_nil]
      exact Or.inl hl'
    · have hline : g ∈ lineGap := fun b hb => ⟨hg.1 b hb, fun h => hbreak (h ▸ hb)⟩
      have hunbroken : g ++ w ∈ unbroken :=
        mul_le_within lineGap_le_unbroken (keyword_le_unbroken (by decide)) (append_mem_mul hline hw)
      rw [show (g ++ w).takeWhile (· ≠ ch '\n') = g ++ w by simpa using takeWhile_unbroken hunbroken []]
      exact Or.inr (append_mem_mul ⟨hline, hg.2⟩ hw)
  | some .desc =>
    have hle : (lineGap - 1) * keyword "DESC" ≤ unbroken :=
      mul_le_within (fun _ hg => lineGap_le_unbroken hg.1) (keyword_le_unbroken (by decide))
    rw [hwhole (hle h)]
    exact h

theorem takeWhile_order {order : Option OrderTree} (h : s ∈ orderTexts .line order) :
    s.takeWhile (· ≠ ch '\n') ∈ orderLine order := by
  cases order with
  | none =>
    obtain rfl : s = [] := h
    rfl
  | some o =>
    simp only [orderTexts, mul_assoc, mem_mul] at h
    obtain ⟨p, hp, _, ⟨n, hn, d, hd, rfl⟩, rfl⟩ := h
    rw [takeWhile_unbroken (phrase_le_unbroken (by decide) hp),
      takeWhile_unbroken (exactly_le_unbroken o.column.isWord hn), ← List.append_assoc]
    exact append_mem_mul (append_mem_mul hp hn) (takeWhile_direction hd)

/-- The parts of a selection that is laid out on a line. -/
theorem mem_selectTexts {t : SelectTree} (hs : s ∈ t.texts .line) :
    ∃ k rest A r J W O, extract s = some (k, rest) ∧ upper k = str "SELECT" ∧
      A ∈ sepBy comma (t.items.map (Item.texts .free)) ∧ r ∈ lineGap ∧ J ∈ joinTexts .line t.join ∧
      W ∈ conditionsTexts .line t.conditions ∧ O ∈ orderLine t.order ∧
      rest.takeWhile (· ≠ ch '\n') =
        A ++ (blanked [str "FROM"] ++ (r ++ (t.table.text ++ (J ++ (W ++ O))))) := by
  simp only [SelectTree.texts, mul_assoc, mem_mul] at hs
  obtain ⟨g, hg, _, ⟨k, hk, _, ⟨g₁, hg₁, _, ⟨cols, hcols, _, ⟨p, hp, _, ⟨T, hT, _, ⟨J, hJ, _, ⟨W, hW, O, hO,
    rfl⟩, rfl⟩, rfl⟩, rfl⟩, rfl⟩, rfl⟩, rfl⟩, rfl⟩ := hs
  obtain rfl : T = t.table.text := hT
  obtain ⟨l, hl, r, hr, rfl⟩ := mem_phrase hp
  have hext := extract_append (isSpace_of_mem_gap hg) (isWord_keyword hk (by decide))
    (r := g₁ ++ (cols ++ ((l ++ (blanked [str "FROM"] ++ r)) ++ (t.table.text ++ (J ++ (W ++ O)))))) (by
      intro x hx
      rw [List.head?_append_of_ne_nil _ hg₁.2] at hx
      exact isSpace_of_mem_lineGap hg₁.1 x (List.mem_of_mem_head? hx))
  have hA := mem_items t.items_ne_nil (lineGap_le_gap hg₁.1) (line_items_le _ hcols) (lineGap_le_gap hl)
  refine ⟨k, _, g₁ ++ (cols ++ l), r, J, W, _, hext, hk, hA, hr, hJ, hW, takeWhile_order hO, ?_⟩
  have hphrase : l ++ (blanked [str "FROM"] ++ r) ∈ unbroken := phrase_le_unbroken (by decide) hp
  rw [takeWhile_unbroken (lineGap_le_unbroken hg₁.1), takeWhile_unbroken (items_le_unbroken _ hcols),
    takeWhile_unbroken hphrase,
    takeWhile_unbroken (exactly_le_unbroken t.table.isWord rfl),
    takeWhile_unbroken (joinTexts_le_unbroken _ hJ), takeWhile_unbroken (conditionsTexts_le_unbroken _ hW)]
  simp

theorem parse_selectTexts {t : SelectTree} (hs : s ∈ t.texts .line) (hclean : dropEnd isJunk s = s) :
    parse s = (Tree.select t).statement := by
  obtain ⟨k, rest, A, r, J, W, O, hext, hk, hA, hr, hJ, hW, hO, hline⟩ := mem_selectTexts hs
  have hclean' : dropEnd (fun b => b = ch ';' || isSpace b) s = s := hclean
  have hstmt := parseSelect_line hr hJ hW hO hA hline
  have hvalid : isValid (Tree.select t).statement = true := by
    simp [isValid, Tree.statement, SelectTree.statement, t.table.caps_ne_nil, t.items_ne_nil]
  have hcreate : str "SELECT" ≠ str "CREATE" := by decide
  have hinsert : str "SELECT" ≠ str "INSERT" := by decide
  have hdelete : str "SELECT" ≠ str "DELETE" := by decide
  simp only [parse, hclean', hext, hk, hcreate, hinsert, hdelete, if_true, if_false, hstmt]
  exact if_pos hvalid

end FlexQL.Parser
