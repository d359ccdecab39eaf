import FlexQL.Parser.ReadBack

/-!
# The words of a selection

The words that stand in the columns and in the conditions of a `SELECT`. Apart from operands, none of
them is a keyword.
-/

namespace FlexQL.Parser

open Text Language

variable {a b g g' s w x y : Text} {c : UInt8} {i : Ident}

/-! ## Names are no keywords -/

theorem upper_of_mem_keywords (h : w ∈ keywords) : upper w = w := by
  have hall : ∀ k ∈ keywords, upper k = k := by decide
  exact hall w h

theorem notMem_of_mem_keywords (h : w ∈ keywords) (hc : isNameByte c = false) : c ∉ w := by
  intro hmem
  simp [isNameByte_of_mem_keywords h c hmem] at hc

theorem Ident.text_notMem (i : Ident) : i.text ∉ keywords := by
  intro h
  apply i.notKeyword
  rwa [upper_of_mem_keywords h]

theorem Column.isWord (col : Column) : IsWord col.text := by
  obtain ⟨qualifier, i⟩ := col
  cases qualifier with
  | none => exact i.isWord
  | some j =>
    refine ⟨by simp [Column.text], ?_⟩
    intro b hb
    rcases List.mem_append.mp hb with hb | hb
    · exact j.isWord.noSpace b hb
    · rcases List.mem_cons.mp hb with rfl | hb
      · decide
      · exact i.isWord.noSpace b hb

theorem Column.text_notMem (col : Column) : col.text ∉ keywords := by
  obtain ⟨qualifier, i⟩ := col
  cases qualifier with
  | none => exact i.text_notMem
  | some j =>
    intro h
    exact notMem_of_mem_keywords h (show isNameByte (ch '.') = false by decide) (by simp [Column.text])

theorem Op.isWord (op : Op) : IsWord op.text := by
  cases op <;> exact ⟨by decide, List.all_iff_forall_prop.mp (by decide)⟩

theorem Op.text_notMem (op : Op) : op.text ∉ keywords := by
  cases op <;> decide

theorem Operand.isWord (v : Operand) : IsWord v.text := ⟨v.ne_nil, fun b hb => (v.bytes b hb).1⟩

theorem Item.isWord (i : Item) : IsWord i.text := by
  cases i with
  | star => exact ⟨by decide, List.all_iff_forall_prop.mp (by decide)⟩
  | column c => exact c.isWord

theorem Item.text_notMem (i : Item) : i.text ∉ keywords := by
  cases i with
  | star => decide
  | column c => exact c.text_notMem

theorem Column.notMem (col : Column) (hc : isNameByte c = false) (hdot : c ≠ ch '.') : c ∉ col.text := by
  obtain ⟨qualifier, i⟩ := col
  cases qualifier with
  | none => exact i.notMem hc
  | some j =>
    simp only [Column.text, List.mem_append, List.mem_cons, not_or]
    exact ⟨j.notMem hc, hdot, i.notMem hc⟩

theorem Item.comma_notMem (i : Item) : ch ',' ∉ i.text := by
  cases i with
  | star => decide
  | column c => exact c.notMem (by decide) (by decide)

/-! ## White space on a line -/

theorem lineGap_le_gap : lineGap ≤ gap := fun _ hg b hb => (hg b hb).1

theorem isSpace_of_mem_lineGap (hg : g ∈ lineGap) : ∀ x ∈ g, isSpace x = true :=
  isSpace_of_mem_gap (lineGap_le_gap hg)

theorem gap_mul_gap : gap * gap ≤ gap := mul_le_within le_rfl le_rfl

theorem words_append_lineGap (hg : g ∈ lineGap - 1) (a b : Text) :
    words (a ++ (g ++ b)) = words a ++ words b :=
  words_append_space_append (isSpace_of_mem_lineGap hg.1) hg.2 a b

theorem words_append_of_starting (hb : b ∈ starting fun c => isSpace c = true) (a : Text) :
    words (a ++ b) = words a ++ words b := by
  cases b with
  | nil => simp
  | cons c b => rw [words_append_cons _ _ (hb c rfl), words_cons_of_space (hb c rfl)]

theorem lineGap_append_mem_starting (hg : g ∈ lineGap) (hs : s ∈ starting fun c => isSpace c = true) :
    g ++ s ∈ starting fun c => isSpace c = true := by
  cases g with
  | nil => exact hs
  | cons c g =>
    intro x hx
    obtain rfl : c = x := by simpa using hx
    exact isSpace_of_mem_lineGap hg c List.mem_cons_self

theorem blank_mem_lineGap : str " " ∈ lineGap := by
  intro b hb
  obtain rfl : b = ch ' ' := List.mem_singleton.mp hb
  decide

theorem blank_mem_lineSpace : str " " ∈ lineGap - 1 := by
  refine ⟨blank_mem_lineGap, ?_⟩
  change str " " ≠ []
  decide

theorem blank_mem_space : str " " ∈ space := ⟨lineGap_le_gap blank_mem_lineSpace.1, blank_mem_lineSpace.2⟩

theorem nil_mem_lineGap : ([] : Text) ∈ lineGap := one_le_within rfl

theorem mem_keyword {k : String} (hk : str k ∈ keywords) : str k ∈ keyword k := upper_of_mem_keywords hk

theorem mem_phrase {ks : List String} (h : s ∈ Spacing.line.phrase ks) :
    ∃ l ∈ lineGap, ∃ r ∈ lineGap, s = l ++ (blanked (ks.map str) ++ r) := by
  simp only [Spacing.line, mul_assoc, mem_mul] at h
  obtain ⟨l, hl, _, ⟨k, hk, r, hr, rfl⟩, rfl⟩ := h
  exact ⟨l, hl, r, hr, by rw [show k = _ from hk]⟩

/-! ## A layout on a line is a spelling -/

theorem line_phrase_le {ks : List String} (hks : ∀ k ∈ ks, str k ∈ keywords) :
    Spacing.line.phrase ks ≤ Spacing.free.phrase ks := by
  intro s hs
  obtain ⟨l, hl, r, hr, rfl⟩ := mem_phrase hs
  have hinner : [32].intercalate (ks.map str) ∈ sepBy space (ks.map keyword) := by
    have hwords : List.Forall₂ (fun p l => p ∈ l ∧ [] ++ p ∈ l) (ks.map str) (ks.map keyword) := by
      rw [List.forall₂_map_left_iff, List.forall₂_map_right_iff, List.forall₂_same]
      exact fun k hk => ⟨mem_keyword (hks k hk), mem_keyword (hks k hk)⟩
    have h := intercalate_mem_sepBy blank_mem_space hwords
    rw [List.append_nil] at h
    exact h.1
  have hleft : l ++ [32] ∈ space := by
    refine ⟨mul_le_within lineGap_le_gap le_rfl (append_mem_mul hl blank_mem_space.1), ?_⟩
    change l ++ [32] ≠ []
    simp
  have hright : 32 :: r ∈ space := by
    refine ⟨mul_le_within le_rfl lineGap_le_gap (append_mem_mul blank_mem_space.1 hr), ?_⟩
    change 32 :: r ≠ []
    simp
  rw [show l ++ (blanked (ks.map str) ++ r) = (l ++ [32]) ++ [32].intercalate (ks.map str) ++ (32 :: r) by
    simp [blanked]]
  exact append_mem_mul (append_mem_mul hleft hinner) hright

theorem line_gap_le : Spacing.line.gap - 1 ≤ Spacing.free.gap - 1 := fun _ hg => ⟨lineGap_le_gap hg.1, hg.2⟩

theorem line_last_le (d : Direction) : Spacing.line.last d ≤ Spacing.free.last d := by
  cases d with
  | asc => exact le_rfl
  | desc => exact line_gap_le

theorem line_joinTexts_le (join : Option JoinTree) : joinTexts .line join ≤ joinTexts .free join := by
  cases join with
  | none => exact le_rfl
  | some j =>
    exact mul_le_mul' (mul_le_mul' (mul_le_mul' (mul_le_mul' (mul_le_mul' (mul_le_mul' (mul_le_mul'
      (line_phrase_le (by decide)) le_rfl) (line_phrase_le (by decide))) le_rfl) lineGap_le_gap) le_rfl)
      lineGap_le_gap) le_rfl

theorem line_conditions_le (cs : List Condition) :
    sepBy (andTexts .line) (cs.map (Condition.texts .line)) ≤
      sepBy (andTexts .free) (cs.map (Condition.texts .free)) := by
  apply sepBy_mono (mul_le_mul' (mul_le_mul' line_gap_le le_rfl) line_gap_le)
  rw [List.forall₂_map_left_iff, List.forall₂_map_right_iff, List.forall₂_same]
  exact fun cond _ => mul_le_mul' (mul_le_mul' (mul_le_mul' (mul_le_mul' le_rfl line_gap_le) le_rfl)
    line_gap_le) le_rfl

theorem line_items_le (items : List Item) :
    sepBy comma (items.map (Item.texts .line)) ≤ sepBy comma (items.map (Item.texts .free)) := by
  apply sepBy_mono le_rfl
  rw [List.forall₂_map_left_iff, List.forall₂_map_right_iff, List.forall₂_same]
  exact fun item _ => mul_le_mul' (mul_le_mul' lineGap_le_gap le_rfl) lineGap_le_gap

theorem line_conditionsTexts_le (cs : List Condition) :
    conditionsTexts .line cs ≤ conditionsTexts .free cs := by
  cases cs with
  | nil => exact le_rfl
  | cons cond cs => exact mul_le_mul' (line_phrase_le (by decide)) (line_conditions_le _)

theorem line_orderTexts_le (order : Option OrderTree) : orderTexts .line order ≤ orderTexts .free order := by
  cases order with
  | none => exact le_rfl
  | some o =>
    refine mul_le_mul' (mul_le_mul' (line_phrase_le (by decide)) le_rfl) ?_
    cases o.direction with
    | none => exact le_rfl
    | some d => exact mul_le_mul' (line_last_le d) le_rfl

theorem line_texts_le (t : Tree) : t.texts .line ≤ t.texts .free := by
  cases t with
  | create t => exact le_rfl
  | delete table => exact le_rfl
  | select t =>
    exact mul_le_mul' (mul_le_mul' (mul_le_mul' (mul_le_mul' (mul_le_mul' (mul_le_mul' (mul_le_mul' le_rfl
      line_gap_le) (line_items_le t.items)) (line_phrase_le (by decide))) le_rfl) (line_joinTexts_le t.join))
      (line_conditionsTexts_le t.conditions)) (line_orderTexts_le t.order)

/-! ## Columns -/

theorem mem_items {items : List Item} (hne : items ≠ []) (hg : g ∈ gap)
    (hs : s ∈ sepBy comma (items.map (Item.texts .free))) (hg' : g' ∈ gap) :
    g ++ (s ++ g') ∈ sepBy comma (items.map (Item.texts .free)) := by
  have hleft : g ++ s ∈ sepBy comma (items.map (Item.texts .free)) := by
    obtain ⟨i, items, rfl⟩ := List.exists_cons_of_ne_nil hne
    have hmem := append_mem_mul hg hs
    rw [List.map_cons, mul_sepBy_cons] at hmem
    refine sepBy_mono le_rfl (List.Forall₂.cons ?_ (List.forall₂_refl _)) hmem
    rw [Item.texts, ← mul_assoc, ← mul_assoc]
    exact mul_le_mul' (mul_le_mul' gap_mul_gap le_rfl) le_rfl
  obtain ⟨items, i, rfl⟩ := List.eq_nil_or_concat items |>.resolve_left hne
  have hmem := append_mem_mul hleft hg'
  rw [List.concat_eq_append, List.map_append, List.map_singleton, sepBy_append_singleton_mul] at hmem
  rw [List.append_assoc] at hmem
  rw [List.concat_eq_append, List.map_append, List.map_singleton]
  refine sepBy_mono le_rfl (List.rel_append (List.forall₂_refl _) (List.Forall₂.cons ?_ List.Forall₂.nil)) hmem
  rw [Item.texts, mul_assoc]
  exact mul_le_mul' le_rfl gap_mul_gap

theorem stripDelimiters_item (item : Item) (hs : s ∈ item.texts .free) :
    stripDelimiters s = item.caps := by
  simp only [Item.texts, mul_assoc, mem_mul] at hs
  obtain ⟨g, hg, _, ⟨t, ht, g', hg', rfl⟩, rfl⟩ := hs
  obtain rfl : t = item.text := ht
  cases item with
  | star =>
    have htrim := trim_append (s := str "*") isBlank hg hg' (by rintro _ ⟨⟩; decide) (by rintro _ ⟨⟩; decide)
    simp only [stripDelimiters, Item.text, htrim]
    decide
  | column col => exact stripDelimiters_column col hg hg'

theorem words_item (item : Item) (hs : s ∈ item.texts .free) : words s = [item.text] := by
  simp only [Item.texts, mul_assoc, mem_mul] at hs
  obtain ⟨g, hg, _, ⟨t, ht, g', hg', rfl⟩, rfl⟩ := hs
  obtain rfl : t = item.text := ht
  rw [words_space_append (isSpace_of_mem_gap hg), words_append_space (isSpace_of_mem_gap hg'),
    item.isWord.words_eq]

theorem notMem_item (item : Item) (hs : s ∈ item.texts .free) : ch ',' ∉ s ∧ s ≠ [] := by
  simp only [Item.texts, mul_assoc, mem_mul] at hs
  obtain ⟨g, hg, _, ⟨t, ht, g', hg', rfl⟩, rfl⟩ := hs
  obtain rfl : t = item.text := ht
  have hgap {g : Text} (hg : g ∈ gap) : ch ',' ∉ g := fun h => absurd (hg _ h) (by decide)
  constructor
  · simp only [List.mem_append, not_or]
    exact ⟨hgap hg, item.comma_notMem, hgap hg'⟩
  · simp [item.isWord.ne_nil]

theorem map_stripDelimiters {items : List Item} (hne : items ≠ [])
    (hs : s ∈ sepBy comma (items.map (Item.texts .free))) :
    (getLines (ch ',') s).map stripDelimiters = items.map Item.caps := by
  have hpieces := getLines_sepBy (by simpa using hne) (fun l hl p hp => by
    obtain ⟨item, -, rfl⟩ := List.mem_map.mp hl
    exact notMem_item item hp) hs
  rw [List.forall₂_map_right_iff] at hpieces
  rw [← List.forall₂_eq_eq_eq, List.forall₂_map_left_iff, List.forall₂_map_right_iff]
  exact hpieces.imp fun p item hp => stripDelimiters_item item hp

/-- No word of the list of columns is a keyword. -/
theorem words_items_notMem {items : List Item} (hs : s ∈ sepBy comma (items.map (Item.texts .free)))
    (hw : w ∈ words s) : w ∉ keywords := by
  induction items generalizing s with
  | nil =>
    obtain rfl : s = [] := hs
    simp at hw
  | cons item items ih =>
    cases items with
    | nil =>
      rw [words_item item hs, List.mem_singleton] at hw
      exact hw ▸ item.text_notMem
    | cons item' items =>
      simp only [List.map_cons, sepBy_cons_cons, mem_mul] at hs
      obtain ⟨p, hp, _, ⟨c, hc, r, hr, rfl⟩, rfl⟩ := hs
      obtain rfl : c = [ch ','] := hc
      rcases mem_words_append_cons hw with hw | hw | hw
      · rw [words_item item hp, List.mem_singleton] at hw
        exact hw ▸ item.text_notMem
      · exact ih hr hw
      · exact fun h => notMem_of_mem_keywords h (by decide) hw

/-! ## Conditions -/

/-- The words of a list of conditions. The one between two conditions is read as `AND`. -/
def Listed : List Condition → List Text → Prop
  | [], ws => ws = []
  | [c], ws => ws = [c.column.text, c.op.text, c.operand.text]
  | c :: c' :: cs, ws =>
    ∃ k ws', upper k = str "AND" ∧ Listed (c' :: cs) ws' ∧
      ws = c.column.text :: c.op.text :: c.operand.text :: k :: ws'

theorem words_condition (cond : Condition) (hs : s ∈ cond.texts .free) :
    words s = [cond.column.text, cond.op.text, cond.operand.text] := by
  simp only [Condition.texts, mul_assoc, mem_mul] at hs
  obtain ⟨n, hn, _, ⟨g, hg, _, ⟨o, ho, _, ⟨g', hg', v, hv, rfl⟩, rfl⟩, rfl⟩, rfl⟩ := hs
  obtain rfl : n = cond.column.text := hn
  obtain rfl : o = cond.op.text := ho
  obtain rfl : v = cond.operand.text := hv
  rw [words_append_space_mem hg, words_append_space_mem hg', cond.column.isWord.words_eq,
    cond.op.isWord.words_eq, cond.operand.isWord.words_eq]
  rfl

theorem listed_words {cs : List Condition}
    (hs : s ∈ sepBy (andTexts .free) (cs.map (Condition.texts .free))) :
    Listed cs (words s) := by
  induction cs generalizing s with
  | nil =>
    obtain rfl : s = [] := hs
    rfl
  | cons cond cs ih =>
    cases cs with
    | nil => exact words_condition cond hs
    | cons cond' cs =>
      rw [List.map_cons, List.map_cons, sepBy_cons_cons] at hs
      simp only [andTexts, mem_mul] at hs
      obtain ⟨p, hp, _, ⟨_, ⟨_, ⟨g, hg, k, hk, rfl⟩, g', hg', rfl⟩, r, hr, rfl⟩, rfl⟩ := hs
      rw [List.append_assoc, List.append_assoc]
      refine ⟨k, words r, hk, ih hr, ?_⟩
      rw [words_append_space_mem hg, words_append_space_mem hg', words_condition cond hp,
        (isWord_keyword hk (by decide)).words_eq]
      rfl

theorem stripDelimiters_text (col : Column) : stripDelimiters col.text = col.name.caps := by
  simpa using stripDelimiters_column col nil_mem_gap nil_mem_gap

theorem Ident.caps_ne_and (i : Ident) : i.caps ≠ str "AND" := by
  intro h
  exact i.notKeyword ((show upper i.text = _ from h) ▸ by decide)

theorem extract_of_words_nil (h : words s = []) : extract s = none := by
  have heq := words_eq_extract s
  rw [h] at heq
  cases hext : extract s with
  | none => rfl
  | some p => simp [hext] at heq

/-- The conditions are read off their words. -/
theorem parseFilters_of_listed {cs : List Condition} {fuel : ℕ} (h : Listed cs (words s))
    (hfuel : cs.length ≤ fuel) : parseFilters fuel s = cs.map Condition.statement := by
  induction cs generalizing s fuel with
  | nil =>
    cases fuel with
    | zero => rfl
    | succ fuel => simp [parseFilters, extract_of_words_nil h]
  | cons cond cs ih =>
    obtain ⟨fuel, rfl⟩ : ∃ n, fuel = n + 1 := ⟨fuel - 1, by simp at hfuel; omega⟩
    have hone (r : List Text) (hwords : words s = cond.column.text :: cond.op.text :: cond.operand.text :: r) :
        ∃ t, words t = r ∧ parseFilters (fuel + 1) s =
          cond.statement :: (extract t).elim [] fun p => parseFilters fuel p.2 := by
      obtain ⟨s₁, hext₁, hs₁⟩ := extract_of_words hwords
      obtain ⟨s₂, hext₂, hs₂⟩ := extract_of_words hs₁
      obtain ⟨s₃, hext₃, hs₃⟩ := extract_of_words hs₂
      refine ⟨s₃, hs₃, ?_⟩
      rw [parseFilters, hext₁]
      simp only [hext₂, hext₃, stripDelimiters_text, cond.column.name.caps_ne_and, if_false]
      cases extract s₃ with
      | none => rfl
      | some p => rfl
    cases cs with
    | nil =>
      obtain ⟨t, ht, hparse⟩ := hone [] h
      rw [hparse, extract_of_words_nil ht]
      rfl
    | cons cond' cs =>
      obtain ⟨k, ws, -, hlisted, hwords⟩ := h
      obtain ⟨t, ht, hparse⟩ := hone (k :: ws) hwords
      obtain ⟨t', hext, ht'⟩ := extract_of_words ht
      rw [hparse, hext]
      change _ :: parseFilters fuel t' = _
      rw [ih (ht' ▸ hlisted) (by simpa using hfuel)]
      rfl

/-- Two clause keywords do not follow each other in a list of conditions: a keyword can only stand
there as an operand, and the word behind an operand is `AND`. -/
theorem isChain_of_listed {cs : List Condition} {ws : List Text} {k k' : Text} (hk : k ∈ keywords)
    (hk' : k' ∈ keywords) (hne : k ≠ str "AND") (hne' : k' ≠ str "AND") (h : Listed cs ws) :
    ws.IsChain fun w w' => ¬ (w = k ∧ w' = k') := by
  induction cs generalizing ws with
  | nil =>
    obtain rfl : ws = [] := h
    exact List.isChain_nil
  | cons cond cs ih =>
    have hcolumn : cond.column.text ≠ k := fun h => cond.column.text_notMem (h ▸ hk)
    have hop : cond.op.text ≠ k := fun h => cond.op.text_notMem (h ▸ hk)
    cases cs with
    | nil =>
      obtain rfl : ws = _ := h
      simp [hcolumn, hop]
    | cons cond' cs =>
      obtain ⟨w, ws, hw, hlisted, rfl⟩ := h
      have hword : w ≠ k := by
        rintro rfl
        exact hne (by rw [← hw, upper_of_mem_keywords hk])
      have hword' : w ≠ k' := by
        rintro rfl
        exact hne' (by rw [← hw, upper_of_mem_keywords hk'])
      have hrest := ih hlisted
      simp only [List.isChain_cons_cons, hcolumn, hop, hword', false_and, and_false, not_false_eq_true,
        true_and]
      rw [List.isChain_cons]
      exact ⟨fun y _ hy => hword hy.1, hrest⟩


end FlexQL.Parser
