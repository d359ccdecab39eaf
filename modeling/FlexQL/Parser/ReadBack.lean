import FlexQL.Parser.Grammar
import Mathlib.Data.Bool.AllAny

/-!
# Reading sentences back

What the parser makes of the texts of a `CREATE` and of a `DELETE`.
-/

namespace FlexQL.Parser

open Text Language

variable {a b g g' s w x y : Text} {c : UInt8} {i : Ident}

/-! ## Bytes -/

theorem isSpace_of_isBlank (h : isBlank c = true) : isSpace c = true := by
  simp only [isBlank, Bool.or_eq_true, decide_eq_true_eq] at h
  rcases h with ((rfl | rfl) | rfl) | rfl <;> decide

theorem nil_mem_gap : ([] : Text) ∈ gap := fun _ h => absurd h List.not_mem_nil

theorem isSpace_of_mem_gap (hg : g ∈ gap) : ∀ x ∈ g, isSpace x = true :=
  fun x hx => isSpace_of_isBlank (hg x hx)

theorem isNameByte_iff : isNameByte c = true ↔
    (48 ≤ c.toNat ∧ c.toNat ≤ 57) ∨ (65 ≤ c.toNat ∧ c.toNat ≤ 90) ∨ (97 ≤ c.toNat ∧ c.toNat ≤ 122) ∨
      c.toNat = 95 := by
  have h95 : c = ch '_' ↔ c.toNat = 95 := by
    rw [← UInt8.toNat_inj]
    rfl
  simp only [isNameByte, isDigit, Bool.or_eq_true, Bool.and_eq_true, decide_eq_true_eq,
    UInt8.le_iff_toNat_le, h95]
  change (((48 ≤ c.toNat ∧ c.toNat ≤ 57) ∨ (65 ≤ c.toNat ∧ c.toNat ≤ 90)) ∨ _) ∨ _ ↔ _
  tauto

theorem isSpace_iff : isSpace c = true ↔ c.toNat = 32 ∨ (9 ≤ c.toNat ∧ c.toNat ≤ 13) := by
  have h32 : c = 32 ↔ c.toNat = 32 := by
    rw [← UInt8.toNat_inj]
    rfl
  simp only [isSpace, Bool.or_eq_true, Bool.and_eq_true, decide_eq_true_eq, UInt8.le_iff_toNat_le, h32]
  rfl

theorem isSpace_of_isNameByte (h : isNameByte c = true) : isSpace c = false := by
  rw [isNameByte_iff] at h
  rw [Bool.eq_false_iff, Ne, isSpace_iff]
  omega

theorem isBlank_of_isNameByte (h : isNameByte c = true) : isBlank c = false := by
  rw [Bool.eq_false_iff]
  intro hb
  have := isSpace_of_isBlank hb
  simp [isSpace_of_isNameByte h] at this

/-- A byte of a name is none of the punctuation marks. -/
theorem ne_of_isNameByte (h : isNameByte c = true) (p : UInt8) (hp : isNameByte p = false) : c ≠ p := by
  rintro rfl
  simp [h] at hp

theorem Ident.isWord (i : Ident) : IsWord i.text :=
  ⟨i.ne_nil, fun b hb => isSpace_of_isNameByte (i.nameBytes b hb)⟩

theorem Ident.notMem (i : Ident) {p : UInt8} (hp : isNameByte p = false) : p ∉ i.text :=
  fun h => ne_of_isNameByte (i.nameBytes p h) p hp rfl

/-! ## Stripping -/

theorem trim_append (p : UInt8 → Bool) (hg : ∀ x ∈ g, p x = true) (hg' : ∀ x ∈ g', p x = true)
    (hhead : ∀ x, s.head? = some x → p x = false) (hlast : ∀ x, s.getLast? = some x → p x = false) :
    trim p (g ++ (s ++ g')) = s := by
  induction g' using List.reverseRecOn with
  | nil =>
    rw [List.append_nil, trim, List.dropWhile_append_of_pos hg]
    cases s with
    | nil => rfl
    | cons x s =>
      rw [List.dropWhile_cons_of_neg (by simp [hhead x rfl])]
      exact dropEnd_eq_self hlast
  | append_singleton g' x ih =>
    have hx : p x = true := hg' x (by simp)
    rw [← List.append_assoc, ← List.append_assoc, trim_append_of_pos _ hx, List.append_assoc]
    exact ih fun y hy => hg' y (by simp [hy])

/-- Stripping finds the name between the last dot and the first delimiter. -/
theorem stripDelimiters_eq {q n r : Text} (hn : ∀ x ∈ n, isNameByte x = true) (hg : g ∈ gap)
    (hg' : g' ∈ gap) (hq : q = [] ∨ q.getLast? = some (ch '.')) (hr : r = [] ∨ r.head? = some (ch '('))
    (hdot : ch '.' ∉ r) (hhead : ∀ x, (q ++ (n ++ r)).head? = some x → isBlank x = false)
    (hlast : ∀ x, (q ++ (n ++ r)).getLast? = some x → isBlank x = false) :
    stripDelimiters (g ++ ((q ++ (n ++ r)) ++ g')) = upper n := by
  have hname : ∀ x ∈ (n ++ r).reverse, decide (x ≠ ch '.') = true := by
    intro x hx
    rw [List.mem_reverse, List.mem_append] at hx
    rcases hx with hx | hx
    · exact decide_eq_true (ne_of_isNameByte (hn x hx) _ (by decide))
    · exact decide_eq_true (ne_of_mem_of_not_mem hx hdot)
  have hqual : q.reverse.takeWhile (· ≠ ch '.') = [] := by
    rcases hq with rfl | hq
    · rfl
    · obtain ⟨q', rfl⟩ := List.getLast?_eq_some_iff.mp hq
      simp
  have hdelim : ∀ x ∈ n, (!(str "(,; ").contains x) = true := by
    intro x hx
    have hne := ne_of_isNameByte (hn x hx)
    simp [str, hne _ (show isNameByte (ch '(') = false by decide),
      hne _ (show isNameByte (ch ',') = false by decide),
      hne _ (show isNameByte (ch ';') = false by decide),
      hne _ (show isNameByte (ch ' ') = false by decide)]
  have hrest : r.takeWhile (fun x => !(str "(,; ").contains x) = [] := by
    rcases hr with rfl | hr
    · rfl
    · obtain ⟨r', rfl⟩ := List.head?_eq_some_iff.mp hr
      rfl
  unfold stripDelimiters
  rw [trim_append isBlank hg hg' hhead hlast]
  change upper (List.takeWhile _ (List.takeWhile _ (List.reverse (q ++ (n ++ r)))).reverse) = _
  rw [List.reverse_append, List.takeWhile_append_of_pos hname, hqual, List.append_nil,
    List.reverse_reverse, List.takeWhile_append_of_pos hdelim, hrest, List.append_nil]

theorem isBlank_head (i : Ident) (r : Text) : ∀ x, (i.text ++ r).head? = some x → isBlank x = false := by
  intro x hx
  rw [List.head?_append_of_ne_nil _ i.ne_nil] at hx
  exact isBlank_of_isNameByte (i.nameBytes x (List.mem_of_mem_head? hx))

theorem isBlank_last (i : Ident) (q : Text) :
    ∀ x, (q ++ i.text).getLast? = some x → isBlank x = false := by
  intro x hx
  rw [List.getLast?_append_of_ne_nil _ i.ne_nil] at hx
  exact isBlank_of_isNameByte (i.nameBytes x (List.mem_of_getLast? hx))

/-- A column loses the white space around it and its qualifier. -/
theorem stripDelimiters_column (col : Column) (hg : g ∈ gap) (hg' : g' ∈ gap) :
    stripDelimiters (g ++ (col.text ++ g')) = col.name.caps := by
  obtain ⟨qualifier, i⟩ := col
  cases qualifier with
  | none =>
    have h := stripDelimiters_eq (q := []) (r := []) i.nameBytes hg hg' (Or.inl rfl) (Or.inl rfl) (by simp)
      (isBlank_head i []) (by simpa using isBlank_last i [])
    simpa [Column.text, Ident.caps] using h
  | some j =>
    have h := stripDelimiters_eq (q := j.text ++ [ch '.']) (r := []) i.nameBytes hg hg' (Or.inr (by simp))
      (Or.inl rfl) (by simp) (by simpa using isBlank_head j (ch '.' :: i.text))
      (by simpa using isBlank_last i (j.text ++ [ch '.']))
    simpa [Column.text, Ident.caps] using h

/-- A name is kept as it stands, up to its letter case. -/
theorem stripDelimiters_name (hw : ∀ x ∈ w, isNameByte x = true) : stripDelimiters w = upper w := by
  have hblank (x : UInt8) (hx : x ∈ w) : isBlank x = false := isBlank_of_isNameByte (hw x hx)
  have h := stripDelimiters_eq (q := []) (r := []) hw nil_mem_gap nil_mem_gap (Or.inl rfl) (Or.inl rfl)
    (by simp) (fun x hx => hblank x (by simpa using List.mem_of_mem_head? hx))
    (fun x hx => hblank x (by simpa using List.mem_of_getLast? hx))
  simpa using h

/-- A name may be followed by an opening parenthesis. -/
theorem stripDelimiters_paren {n r : Text} (hn : ∀ x ∈ n, isNameByte x = true) (hne : n ≠ [])
    (hr : r = [] ∨ r.head? = some (ch '(')) (hdot : ch '.' ∉ r) (hspace : ∀ x ∈ r, isSpace x = false) :
    stripDelimiters (n ++ r) = upper n := by
  have hhead : ∀ x, (n ++ r).head? = some x → isBlank x = false := by
    intro x hx
    rw [List.head?_append_of_ne_nil _ hne] at hx
    exact isBlank_of_isNameByte (hn x (List.mem_of_mem_head? hx))
  have hlast : ∀ x, (n ++ r).getLast? = some x → isBlank x = false := by
    intro x hx
    rcases List.mem_append.mp (List.mem_of_getLast? hx) with hx | hx
    · exact isBlank_of_isNameByte (hn x hx)
    · rw [Bool.eq_false_iff]
      intro hb
      have := isSpace_of_isBlank hb
      simp [hspace x hx] at this
  have h := stripDelimiters_eq (q := []) hn nil_mem_gap nil_mem_gap (Or.inl rfl) hr hdot hhead hlast
  simpa using h

theorem stripDelimiters_ident {r : Text} (i : Ident) (hr : r = [] ∨ r.head? = some (ch '('))
    (hdot : ch '.' ∉ r) (hspace : ∀ x ∈ r, isSpace x = false) : stripDelimiters (i.text ++ r) = i.caps :=
  stripDelimiters_paren i.nameBytes i.ne_nil hr hdot hspace

/-! ## Words -/

theorem isSpace_toUpper (c : UInt8) : isSpace (toUpper c) = isSpace c := by
  unfold toUpper
  split
  · rename_i h
    simp only [Bool.and_eq_true, decide_eq_true_eq, UInt8.le_iff_toNat_le] at h
    have hlow : 97 ≤ c.toNat ∧ c.toNat ≤ 122 := h
    have hsub : (c - 32).toNat = c.toNat - 32 := by
      rw [UInt8.toNat_sub_of_le _ _ (UInt8.le_iff_toNat_le.mpr (le_trans (by decide) h.1))]
      rfl
    have hleft : isSpace (c - 32) = false := by
      rw [Bool.eq_false_iff, Ne, isSpace_iff, hsub]
      omega
    have hright : isSpace c = false := by
      rw [Bool.eq_false_iff, Ne, isSpace_iff]
      omega
    rw [hleft, hright]
  · rfl

theorem isWord_of_upper (h : IsWord (upper w)) : IsWord w := by
  refine ⟨fun hw => h.ne_nil (by simp [hw, upper]), ?_⟩
  intro b hb
  rw [← isSpace_toUpper]
  exact h.noSpace _ (List.mem_map_of_mem hb)

theorem isNameByte_of_mem_keywords (h : w ∈ keywords) : ∀ b ∈ w, isNameByte b = true := by
  have hall : keywords.all (·.all isNameByte) = true := by decide
  exact List.all_eq_true.mp (List.all_eq_true.mp hall w h)

theorem isWord_of_mem_keywords (h : w ∈ keywords) : IsWord w := by
  refine ⟨?_, fun b hb => isSpace_of_isNameByte (isNameByte_of_mem_keywords h b hb)⟩
  rintro rfl
  exact absurd h (by decide)

theorem isWord_keyword {k : String} (h : w ∈ keyword k) (hk : str k ∈ keywords) : IsWord w := by
  apply isWord_of_upper
  rw [show upper w = str k from h]
  exact isWord_of_mem_keywords hk

/-- The words of a text with white space in it. -/
theorem words_append_space_mem (hg : g ∈ space) (a b : Text) : words (a ++ (g ++ b)) = words a ++ words b :=
  words_append_space_append (isSpace_of_mem_gap hg.1) hg.2 a b

theorem extract_of_words {ws : List Text} (h : words s = w :: ws) :
    ∃ r, extract s = some (w, r) ∧ words r = ws := by
  have heq := words_eq_extract s
  rw [h] at heq
  cases hext : extract s with
  | none => simp [hext] at heq
  | some p =>
    obtain ⟨w', r⟩ := p
    simp only [hext, List.cons.injEq] at heq
    obtain ⟨rfl, rfl⟩ := heq
    exact ⟨r, rfl, rfl⟩

theorem readWord_of_words {ws : List Text} (h : words s = w :: ws) (old : Text) :
    ∃ r, readWord old s = (w, r) ∧ words r = ws := by
  obtain ⟨r, hext, hr⟩ := extract_of_words h
  exact ⟨r, by rw [readWord, hext]; rfl, hr⟩

theorem secondWord_of_words {w' : Text} {ws : List Text} (h : words s = w :: w' :: ws) (old : Text) :
    secondWord old s = w' := by
  obtain ⟨r, hr, hws⟩ := readWord_of_words h old
  obtain ⟨r', hr', -⟩ := readWord_of_words hws w
  unfold secondWord
  rw [hr]
  change (readWord w r).1 = w'
  rw [hr']

/-! ## The end of a text -/

/-- A byte that is dropped at the end of a text. -/
def isJunk (b : UInt8) : Bool := b = ch ';' || isSpace b

theorem dropEnd_junk {junk : Text} (hjunk : ∀ b ∈ junk, isJunk b = true)
    (hlast : ∀ x, s.getLast? = some x → isJunk x = false) : dropEnd isJunk (s ++ junk) = s := by
  induction junk using List.reverseRecOn with
  | nil => simpa using dropEnd_eq_self hlast
  | append_singleton junk x ih =>
    rw [← List.append_assoc, dropEnd_append_of_pos _ (hjunk x (by simp))]
    exact ih fun b hb => hjunk b (by simp [hb])

/-- The junk at the end of a text plays no part. -/
theorem parse_dropEnd (s : Text) : parse (dropEnd isJunk s) = parse s := by
  have hidem : dropEnd (fun b => b = ch ';' || isSpace b) (dropEnd isJunk s) =
      dropEnd (fun b => b = ch ';' || isSpace b) s :=
    dropEnd_eq_self fun x hx => getLast?_dropEnd hx
  simp only [parse, hidem]

/-! ## Deletion -/

theorem Ident.caps_ne_nil (i : Ident) : i.caps ≠ [] := by
  simp [Ident.caps, upper, i.ne_nil]

theorem words_deleteTexts {table : Ident} (hs : s ∈ deleteTexts table) :
    ∃ k k', upper k = str "DELETE" ∧ upper k' = str "FROM" ∧ words s = [k, k', table.text] := by
  simp only [deleteTexts, mul_assoc, mem_mul] at hs
  obtain ⟨g, hg, _, ⟨k, hk, _, ⟨g₁, hg₁, _, ⟨k', hk', _, ⟨g₂, hg₂, t, ht, rfl⟩, rfl⟩, rfl⟩, rfl⟩, rfl⟩ := hs
  obtain rfl : t = table.text := ht
  refine ⟨k, k', hk, hk', ?_⟩
  rw [words_space_append (isSpace_of_mem_gap hg), words_append_space_mem hg₁, words_append_space_mem hg₂,
    (isWord_keyword hk (by decide)).words_eq, (isWord_keyword hk' (by decide)).words_eq,
    table.isWord.words_eq]
  rfl

theorem parse_deleteTexts {table : Ident} (hs : s ∈ deleteTexts table)
    (hclean : dropEnd isJunk s = s) : parse s = (Tree.delete table).statement := by
  obtain ⟨k, k', hk, -, hwords⟩ := words_deleteTexts hs
  obtain ⟨rest, hext, hrest⟩ := extract_of_words hwords
  have hclean' : dropEnd (fun b => b = ch ';' || isSpace b) s = s := hclean
  have htable : stripDelimiters (secondWord (upper k) rest) = table.caps := by
    rw [secondWord_of_words hrest]
    simpa using stripDelimiters_ident table (Or.inl rfl) (by simp) (by simp)
  have hcreate : str "DELETE" ≠ str "CREATE" := by decide
  have hinsert : str "DELETE" ≠ str "INSERT" := by decide
  simp only [parse, hclean', hext, hk, hcreate, hinsert, if_false, if_true] at htable ⊢
  rw [htable, if_pos (by simp [isValid, table.caps_ne_nil])]
  rfl

/-! ## Creation -/

theorem isNameByte_toUpper (c : UInt8) : isNameByte (toUpper c) = isNameByte c := by
  unfold toUpper
  split
  · rename_i h
    simp only [Bool.and_eq_true, decide_eq_true_eq, UInt8.le_iff_toNat_le] at h
    have hlow : 97 ≤ c.toNat ∧ c.toNat ≤ 122 := h
    have hsub : (c - 32).toNat = c.toNat - 32 := by
      rw [UInt8.toNat_sub_of_le _ _ (UInt8.le_iff_toNat_le.mpr (le_trans (by decide) h.1))]
      rfl
    have hleft : isNameByte (c - 32) = true := by
      rw [isNameByte_iff, hsub]
      omega
    have hright : isNameByte c = true := by
      rw [isNameByte_iff]
      omega
    rw [hleft, hright]
  · rfl

/-- What begins with white space or with an opening parenthesis. -/
def afterName : Language UInt8 := starting fun c => isBlank c = true ∨ c = ch '('

/-- The first word of a text that begins with a name has this name. -/
theorem stripDelimiters_first {n : Text} (hn : ∀ x ∈ n, isNameByte x = true) (hne : n ≠ [])
    (hy : y ∈ afterName) (hdot : ch '.' ∉ y) :
    ∃ r ws, words (n ++ y) = (n ++ r) :: ws ∧ stripDelimiters (n ++ r) = upper n ∧
      (r = [] ∨ r.head? = some (ch '(')) := by
  have hsplit : y = y.takeWhile (!isSpace ·) ++ y.dropWhile (!isSpace ·) :=
    (List.takeWhile_append_dropWhile ..).symm
  have hword : IsWord (n ++ y.takeWhile (!isSpace ·)) := by
    refine ⟨by simp [hne], ?_⟩
    intro b hb
    rcases List.mem_append.mp hb with hb | hb
    · exact isSpace_of_isNameByte (hn b hb)
    · simpa using List.mem_takeWhile_imp hb
  have hstop : ∀ x, (y.dropWhile (!isSpace ·)).head? = some x → isSpace x = true := by
    intro x hx
    have hstop := List.head?_dropWhile_not (!isSpace ·) y
    rw [hx] at hstop
    simpa using hstop
  have hwords := words_eq_extract (n ++ y)
  have hext := extract_append (g := []) (by simp) hword hstop
  rw [List.nil_append, List.append_assoc, ← hsplit] at hext
  rw [hext] at hwords
  have hparen : y.takeWhile (!isSpace ·) = [] ∨ (y.takeWhile (!isSpace ·)).head? = some (ch '(') := by
    cases y with
    | nil => exact Or.inl rfl
    | cons x y =>
      rcases hy x rfl with hx | rfl
      · exact Or.inl (by simp [isSpace_of_isBlank hx])
      · exact Or.inr rfl
  refine ⟨_, _, hwords, stripDelimiters_paren hn hne hparen ?_ ?_, hparen⟩
  · exact fun h => hdot ((List.takeWhile_sublist _).subset h)
  · intro x hx
    simpa using List.mem_takeWhile_imp hx

theorem parseCol_of_words {w' : Text} {ws : List Text} (h : words s = w :: w' :: ws) :
    parseCol s = some ⟨stripDelimiters w, stripDelimiters w'⟩ := by
  obtain ⟨r, hext, hr⟩ := extract_of_words h
  obtain ⟨r', hext', -⟩ := extract_of_words hr
  simp [parseCol, hext, hext']

section Bytes

variable {P : UInt8 → Prop} (hblank : ∀ b, isBlank b = true → P b) (hname : ∀ b, isNameByte b = true → P b)

include hblank in
theorem gap_le_within : gap ≤ within P := fun _ hg b hb => hblank b (hg b hb)

include hblank in
theorem space_le_within : space ≤ within P := fun _ hg => gap_le_within hblank hg.1

include hname in
theorem ident_le_within (i : Ident) : exactly i.text ≤ within P := by
  rintro _ rfl b hb
  exact hname b (i.nameBytes b hb)

include hname in
theorem keyword_le_within {k : String} (hk : str k ∈ keywords) : keyword k ≤ within P := by
  intro w hw b hb
  apply hname
  rw [← isNameByte_toUpper]
  apply isNameByte_of_mem_keywords hk
  rw [← show upper w = str k from hw]
  exact List.mem_map_of_mem hb

end Bytes

theorem str_le_within {P : UInt8 → Prop} {k : String} (hk : ∀ b ∈ str k, P b) : exactly (str k) ≤ within P := by
  rintro _ rfl b hb
  exact hk b hb

/-- A byte of a column definition. -/
def IsDefByte (b : UInt8) : Prop := isNameByte b = true ∨ isBlank b = true ∨ b = ch '(' ∨ b = ch ')'

instance (b : UInt8) : Decidable (IsDefByte b) := inferInstanceAs (Decidable (_ ∨ _))

theorem IsDefByte.of_isBlank (b : UInt8) (h : isBlank b = true) : IsDefByte b := Or.inr (Or.inl h)

theorem IsDefByte.of_isNameByte (b : UInt8) (h : isNameByte b = true) : IsDefByte b := Or.inl h

theorem opening_le_within : exactly (str "(") ≤ within IsDefByte :=
  str_le_within (List.all_iff_forall_prop.mp (by decide))

theorem closing_le_within : exactly (str ")") ≤ within IsDefByte :=
  str_le_within (List.all_iff_forall_prop.mp (by decide))

theorem argumentTexts_le_within (t : TypeTree) : argumentTexts t.argument ≤ within IsDefByte := by
  have hgap := gap_le_within IsDefByte.of_isBlank
  cases hargument : t.argument with
  | none => exact one_le_within
  | some ds =>
    have hdigits : exactly ds ≤ within IsDefByte := by
      intro x hx b hb
      rw [show x = ds from hx] at hb
      have := (t.digits ds hargument).2 b hb
      exact Or.inl (by simp [isNameByte, this])
    exact mul_le_within (mul_le_within (mul_le_within (mul_le_within (mul_le_within hgap
      opening_le_within) hgap) hdigits) hgap) closing_le_within

theorem keyTexts_le_within (key : Bool) : keyTexts key ≤ within IsDefByte := by
  have hspace := space_le_within IsDefByte.of_isBlank
  cases key with
  | false => exact one_le_within
  | true =>
    exact mul_le_within (mul_le_within (mul_le_within hspace
      (keyword_le_within IsDefByte.of_isNameByte (by decide))) hspace)
      (keyword_le_within IsDefByte.of_isNameByte (by decide))

theorem ColumnTree.texts_le_within (t : ColumnTree) : t.texts ≤ within IsDefByte := by
  have hgap := gap_le_within IsDefByte.of_isBlank
  have hident := ident_le_within IsDefByte.of_isNameByte
  exact mul_le_within (mul_le_within (mul_le_within (mul_le_within (mul_le_within (mul_le_within
    hgap (hident t.name)) (space_le_within IsDefByte.of_isBlank)) (hident t.type.name))
    (argumentTexts_le_within t.type)) (keyTexts_le_within t.primaryKey)) hgap

theorem gap_le_afterName : gap ≤ afterName := by
  intro g hg c hc
  exact Or.inl (hg c (List.mem_of_mem_head? hc))

theorem space_le_afterName : space ≤ afterName := fun _ hg => gap_le_afterName hg.1

theorem paren_le_afterName (m : Language UInt8) : exactly (str "(") * m ≤ afterName := by
  apply mul_le_starting_of_ne_nil
  · rintro _ rfl c hc
    exact Or.inr (by simpa [str] using hc.symm)
  · rintro _ rfl
    decide

theorem argumentTexts_le_afterName (argument : Option Text) : argumentTexts argument ≤ afterName := by
  cases argument with
  | none => exact one_le_starting
  | some ds =>
    simp only [argumentTexts, mul_assoc]
    exact mul_le_starting gap_le_afterName (paren_le_afterName _)

theorem keyTexts_le_afterName (key : Bool) : keyTexts key ≤ afterName := by
  cases key with
  | false => exact one_le_starting
  | true =>
    simp only [keyTexts, mul_assoc]
    exact mul_le_starting_of_ne_nil space_le_afterName (fun _ h => h.2) _

theorem ColumnTree.exists_type (t : ColumnTree) (hs : s ∈ t.texts) :
    ∃ g g' y, g ∈ gap ∧ g' ∈ space ∧ y ∈ afterName ∧
      s = g ++ (t.name.text ++ (g' ++ (t.type.name.text ++ y))) := by
  simp only [ColumnTree.texts, mul_assoc, mem_mul] at hs
  obtain ⟨g, hg, _, ⟨n, hn, _, ⟨g', hg', _, ⟨ty, hty, _, ⟨arg, harg, _, ⟨key, hk, e, he, rfl⟩, rfl⟩, rfl⟩,
    rfl⟩, rfl⟩, rfl⟩ := hs
  obtain rfl : n = t.name.text := hn
  obtain rfl : ty = t.type.name.text := hty
  refine ⟨g, g', arg ++ (key ++ e), hg, hg', ?_, rfl⟩
  apply mul_le_starting (argumentTexts_le_afterName _)
    (mul_le_starting (keyTexts_le_afterName _) gap_le_afterName)
  exact append_mem_mul harg (append_mem_mul hk he)

/-- A definition begins with two names. -/
theorem parseCol_names {n m : Text} (hn : ∀ x ∈ n, isNameByte x = true) (hn' : n ≠ [])
    (hm : ∀ x ∈ m, isNameByte x = true) (hm' : m ≠ []) (hg : g ∈ gap) (hg' : g' ∈ space)
    (hy : y ∈ afterName) (hdot : ch '.' ∉ y) :
    parseCol (g ++ (n ++ (g' ++ (m ++ y)))) = some ⟨upper n, upper m⟩ := by
  obtain ⟨r, ws, hwords, hstrip, -⟩ := stripDelimiters_first hm hm' hy hdot
  have hword : IsWord n := ⟨hn', fun b hb => isSpace_of_isNameByte (hn b hb)⟩
  have hall : words (g ++ (n ++ (g' ++ (m ++ y)))) = n :: (m ++ r) :: ws := by
    rw [words_space_append (isSpace_of_mem_gap hg), words_append_space_mem hg', hword.words_eq, hwords]
    rfl
  rw [parseCol_of_words hall, stripDelimiters_name hn, hstrip]

theorem parseCol_texts (t : ColumnTree) (hs : s ∈ t.texts) :
    parseCol s = some ⟨t.name.caps, t.type.name.caps⟩ := by
  have hdef := t.texts_le_within hs
  obtain ⟨g, g', y, hg, hg', hy, rfl⟩ := t.exists_type hs
  have hdot : ch '.' ∉ y := by
    intro h
    have hbyte := hdef (ch '.') (by simp [h])
    exact absurd hbyte (by decide)
  exact parseCol_names t.name.nameBytes t.name.ne_nil t.type.name.nameBytes t.type.name.ne_nil hg hg' hy hdot

/-- The list of columns is cut at its commas. -/
theorem getLines_sepBy {ls : List (Language UInt8)} (hne : ls ≠ [])
    (hls : ∀ l ∈ ls, ∀ p ∈ l, ch ',' ∉ p ∧ p ≠ []) (hs : s ∈ sepBy comma ls) :
    List.Forall₂ (· ∈ ·) (getLines (ch ',') s) ls := by
  induction ls generalizing s with
  | nil => exact absurd rfl hne
  | cons l ls ih =>
    cases ls with
    | nil =>
      obtain ⟨hcomma, hne⟩ := hls l List.mem_cons_self s hs
      have hlast : s.getLast? ≠ some (ch ',') := fun h => hcomma (List.mem_of_getLast? h)
      rw [getLines_eq_splitOn hne hlast, List.splitOn_eq_singleton hcomma]
      exact List.Forall₂.cons hs List.Forall₂.nil
    | cons m ls =>
      simp only [sepBy_cons_cons, mem_mul] at hs
      obtain ⟨p, hp, _, ⟨c, hc, r, hr, rfl⟩, rfl⟩ := hs
      obtain rfl : c = [ch ','] := hc
      have hrest := ih (by simp) (fun n hn => hls n (List.mem_cons_of_mem _ hn)) hr
      rw [List.singleton_append, getLines_append (hls l List.mem_cons_self p hp).1]
      exact List.Forall₂.cons hp hrest

theorem filterMap_parseCol {cols : List ColumnTree} {pieces : List Text}
    (h : List.Forall₂ (· ∈ ·) pieces (cols.map ColumnTree.texts)) :
    pieces.filterMap parseCol = cols.map fun c => ⟨c.name.caps, c.type.name.caps⟩ := by
  rw [List.forall₂_map_right_iff] at h
  induction h with
  | nil => rfl
  | cons hp _ ih => rw [List.filterMap_cons, parseCol_texts _ hp, ih, List.map_cons]

theorem idxOf?_append_cons (ha : c ∉ a) (b : Text) : (a ++ c :: b).idxOf? c = some a.length := by
  induction a with
  | nil => simp [List.idxOf?_cons]
  | cons x a ih =>
    rw [List.mem_cons, not_or] at ha
    simp [List.idxOf?_cons, Ne.symm ha.1, ih ha.2]

theorem columnList_append (ha : ch '(' ∉ a) : columnList (a ++ (ch '(' :: (b ++ [ch ')']))) = some b := by
  have hfirst : (a ++ ch '(' :: (b ++ [ch ')'])).idxOf? (ch '(') = some a.length :=
    idxOf?_append_cons ha _
  have hlast : (a ++ ch '(' :: (b ++ [ch ')'])).reverse.idxOf? (ch ')') = some 0 := by
    rw [List.reverse_append, List.reverse_cons, List.reverse_append]
    exact idxOf?_append_cons (a := []) (by simp) _
  have hlength : a.length < (a ++ ch '(' :: (b ++ [ch ')'])).length - 1 - 0 := by
    simp only [List.length_append, List.length_cons]
    omega
  have hdrop : (a ++ ch '(' :: (b ++ [ch ')'])).drop (a.length + 1) = b ++ [ch ')'] := by
    simp
  have htake : (a ++ ch '(' :: (b ++ [ch ')'])).length - 1 - 0 - a.length - 1 = b.length := by
    simp only [List.length_append, List.length_cons, List.length_nil]
    omega
  unfold columnList
  rw [hfirst, hlast]
  change some (if _ then _ else _) = _
  rw [if_pos hlength, hdrop, htake, List.take_left' rfl]

theorem tableName_parseCreate {k : Text} {ws : List Text} (h : words s = k :: w :: ws)
    (hw : upper w ≠ str "IF") (sql old : Text) :
    (parseCreate sql s old).tableName = stripDelimiters w := by
  obtain ⟨r, hr, hws⟩ := readWord_of_words h old
  obtain ⟨r', hr', -⟩ := readWord_of_words hws k
  simp [parseCreate, hr, hr', hw]

theorem tableName_parseCreate_if {k w₁ w₂ w₃ : Text} {ws : List Text}
    (h : words s = k :: w₁ :: w₂ :: w₃ :: w :: ws) (hw : upper w₁ = str "IF") (sql old : Text) :
    (parseCreate sql s old).tableName = stripDelimiters w := by
  obtain ⟨r, hr, hws⟩ := readWord_of_words h old
  obtain ⟨r₁, hr₁, hws₁⟩ := readWord_of_words hws k
  obtain ⟨r₂, hr₂, hws₂⟩ := readWord_of_words hws₁ w₁
  obtain ⟨r₃, hr₃, hws₃⟩ := readWord_of_words hws₂ w₂
  obtain ⟨r₄, hr₄, -⟩ := readWord_of_words hws₃ w₃
  simp [parseCreate, hr, hr₁, hr₂, hr₃, hr₄, hw]

/-- The word that holds a name is not taken for `IF`. -/
theorem upper_ne_if (i : Ident) {r : Text} (hr : r = [] ∨ r.head? = some (ch '(')) :
    upper (i.text ++ r) ≠ str "IF" := by
  intro h
  rcases hr with rfl | hr
  · rw [List.append_nil] at h
    exact i.notKeyword (h ▸ by decide)
  · obtain ⟨r', rfl⟩ := List.head?_eq_some_iff.mp hr
    have hmem : toUpper (ch '(') ∈ str "IF" := h ▸ List.mem_map_of_mem (by simp)
    exact absurd hmem (by decide)

theorem ifNotExistsTexts_le_within (flag : Bool) :
    ifNotExistsTexts flag ≤ within fun b => isNameByte b = true ∨ isBlank b = true := by
  have hspace := space_le_within (P := fun b => isNameByte b = true ∨ isBlank b = true) fun _ h => Or.inr h
  have hkeyword {k : String} (hk : str k ∈ keywords) :=
    keyword_le_within (P := fun b => isNameByte b = true ∨ isBlank b = true) (fun _ h => Or.inl h) hk
  cases flag with
  | false => exact one_le_within
  | true =>
    exact mul_le_within (mul_le_within (mul_le_within (mul_le_within (mul_le_within
      (hkeyword (by decide)) hspace) (hkeyword (by decide))) hspace) (hkeyword (by decide))) hspace

/-- The words before the name of the table: none, or three of which the first is `IF`. -/
theorem words_ifNotExists {flag : Bool} (h : x ∈ ifNotExistsTexts flag) (s : Text) :
    (x = [] ∧ words (x ++ s) = words s) ∨
      ∃ w₁ w₂ w₃, upper w₁ = str "IF" ∧ words (x ++ s) = w₁ :: w₂ :: w₃ :: words s := by
  cases flag with
  | false =>
    obtain rfl : x = [] := h
    exact Or.inl ⟨rfl, rfl⟩
  | true =>
    simp only [ifNotExistsTexts, mul_assoc, mem_mul] at h
    obtain ⟨w₁, hw₁, _, ⟨g₁, hg₁, _, ⟨w₂, hw₂, _, ⟨g₂, hg₂, _, ⟨w₃, hw₃, g₃, hg₃, rfl⟩, rfl⟩, rfl⟩, rfl⟩,
      rfl⟩ := h
    refine Or.inr ⟨w₁, w₂, w₃, hw₁, ?_⟩
    simp only [List.append_assoc]
    rw [words_append_space_mem hg₁, words_append_space_mem hg₂, words_append_space_mem hg₃,
      (isWord_keyword hw₁ (by decide)).words_eq, (isWord_keyword hw₂ (by decide)).words_eq,
      (isWord_keyword hw₃ (by decide)).words_eq]
    rfl

/-- The column definitions are read as they stand. -/
theorem filterMap_getLines {cols : List ColumnTree} (hne : cols ≠ [])
    (hs : s ∈ sepBy comma (cols.map ColumnTree.texts)) :
    (getLines (ch ',') s).filterMap parseCol = cols.map fun c => ⟨c.name.caps, c.type.name.caps⟩ := by
  apply filterMap_parseCol
  apply getLines_sepBy (by simpa using hne) _ hs
  intro l hl p hp
  obtain ⟨c, -, rfl⟩ := List.mem_map.mp hl
  constructor
  · intro hcomma
    exact absurd (c.texts_le_within hp _ hcomma) (by decide)
  · obtain ⟨g, g', y, -, -, -, rfl⟩ := c.exists_type hp
    simp [c.name.ne_nil]

theorem notMem_defs {cols : List ColumnTree} (hs : s ∈ sepBy comma (cols.map ColumnTree.texts)) :
    ch '.' ∉ s := by
  have hle : sepBy comma (cols.map ColumnTree.texts) ≤ within fun b => IsDefByte b ∨ b = ch ',' := by
    apply sepBy_le_within
    · rintro _ rfl b hb
      exact Or.inr (List.mem_singleton.mp hb)
    · intro l hl p hp b hb
      obtain ⟨c, -, rfl⟩ := List.mem_map.mp hl
      exact Or.inl (c.texts_le_within hp b hb)
  intro hdot
  exact absurd (hle hs _ hdot) (by decide)

/-- `CREATE TABLE table (list)`. -/
def createTexts (ifNotExists : Bool) (table : Ident) (list : Language UInt8) : Language UInt8 :=
  gap * keyword "CREATE" * space * keyword "TABLE" * space * ifNotExistsTexts ifNotExists *
    exactly table.text * gap * exactly (str "(") * list * exactly (str ")")

theorem CreateTree.texts_eq (t : CreateTree) :
    t.texts = createTexts t.ifNotExists t.table (sepBy comma (t.columns.map ColumnTree.texts)) := rfl

section Create

variable {flag : Bool} {table : Ident} {list : Language UInt8}

/-- The column definitions stand between the first and the last parenthesis. -/
theorem columnList_createTexts (hs : s ∈ createTexts flag table list) :
    ∃ defs ∈ list, columnList s = some defs := by
  have hspace := space_le_within (P := fun b => isNameByte b = true ∨ isBlank b = true) fun _ h => Or.inr h
  have hgap := gap_le_within (P := fun b => isNameByte b = true ∨ isBlank b = true) fun _ h => Or.inr h
  have hkeyword {k : String} (hk : str k ∈ keywords) :=
    keyword_le_within (P := fun b => isNameByte b = true ∨ isBlank b = true) (fun _ h => Or.inl h) hk
  have hhead := mul_le_within (mul_le_within (mul_le_within (mul_le_within (mul_le_within (mul_le_within
    (mul_le_within hgap (hkeyword (k := "CREATE") (by decide))) hspace)
    (hkeyword (k := "TABLE") (by decide))) hspace) (ifNotExistsTexts_le_within flag))
    (ident_le_within (fun _ h => Or.inl h) table)) hgap
  obtain ⟨_, ⟨_, ⟨a, ha, o, ho, rfl⟩, defs, hdefs, rfl⟩, e, he, rfl⟩ := hs
  obtain rfl : o = [ch '('] := ho
  obtain rfl : e = [ch ')'] := he
  have hparen : ch '(' ∉ a := fun h => absurd (hhead ha _ h) (by decide)
  refine ⟨defs, hdefs, ?_⟩
  simpa using columnList_append (b := defs) hparen

/-- The name of the table is the word behind `TABLE`, or the fourth one when the second is `IF`. -/
theorem tableName_createTexts (hdots : ∀ defs ∈ list, ch '.' ∉ defs) (hs : s ∈ createTexts flag table list) :
    ∃ k rest, extract s = some (k, rest) ∧ upper k = str "CREATE" ∧
      ∀ sql old, (parseCreate sql rest old).tableName = table.caps := by
  simp only [createTexts, mul_assoc, mem_mul] at hs
  obtain ⟨g, hg, _, ⟨k, hk, _, ⟨g₁, hg₁, _, ⟨k', hk', _, ⟨g₂, hg₂, _, ⟨ifs, hifs, _, ⟨T, hT, _, ⟨g₃, hg₃, _,
    ⟨o, ho, _, ⟨defs, hdefs, e, he, rfl⟩, rfl⟩, rfl⟩, rfl⟩, rfl⟩, rfl⟩, rfl⟩, rfl⟩, rfl⟩, rfl⟩ := hs
  obtain rfl : T = table.text := hT
  have hdot : ch '.' ∉ g₃ ++ (o ++ (defs ++ e)) := by
    have hg₃' : ch '.' ∉ g₃ := fun h => absurd (hg₃ _ h) (by decide)
    have hdefs' := hdots defs hdefs
    obtain rfl : o = [ch '('] := ho
    obtain rfl : e = [ch ')'] := he
    simp only [List.mem_append, List.mem_singleton, not_or]
    exact ⟨hg₃', by decide, hdefs', by decide⟩
  have hafter : g₃ ++ (o ++ (defs ++ e)) ∈ afterName :=
    mul_le_starting gap_le_afterName (paren_le_afterName _)
      (append_mem_mul hg₃ (append_mem_mul ho (append_mem_mul hdefs he)))
  obtain ⟨r, ws, hwords, hstrip, hr⟩ := stripDelimiters_first table.nameBytes table.ne_nil hafter hdot
  have hall := words_append_space_mem hg₁ (g ++ k) (k' ++ (g₂ ++ (ifs ++ (table.text ++ (g₃ ++ (o ++
    (defs ++ e)))))))
  rw [words_space_append (isSpace_of_mem_gap hg), (isWord_keyword hk (by decide)).words_eq,
    words_append_space_mem hg₂, (isWord_keyword hk' (by decide)).words_eq, List.append_assoc] at hall
  obtain ⟨rest, hext, hrest⟩ := extract_of_words hall
  refine ⟨k, rest, hext, hk, ?_⟩
  intro sql old
  rcases words_ifNotExists hifs (table.text ++ (g₃ ++ (o ++ (defs ++ e)))) with
    ⟨-, hifs⟩ | ⟨w₁, w₂, w₃, hw₁, hifs⟩
  · rw [hifs, hwords] at hrest
    rw [tableName_parseCreate hrest (upper_ne_if table hr), hstrip]
    rfl
  · rw [hifs, hwords] at hrest
    rw [tableName_parseCreate_if hrest hw₁, hstrip]
    rfl

/-- The columns are what the pieces between the commas are read as. -/
theorem parse_create (hdots : ∀ defs ∈ list, ch '.' ∉ defs) (hs : s ∈ createTexts flag table list)
    (hclean : dropEnd isJunk s = s) :
    ∃ defs ∈ list, (getLines (ch ',') defs).filterMap parseCol ≠ [] →
      parse s = { type := .create
                  createStmt := ⟨table.caps, (getLines (ch ',') defs).filterMap parseCol⟩ } := by
  obtain ⟨k, rest, hext, hk, htable⟩ := tableName_createTexts hdots hs
  obtain ⟨defs, hdefs, hlist⟩ := columnList_createTexts hs
  refine ⟨defs, hdefs, fun hne => ?_⟩
  have hclean' : dropEnd (fun b => b = ch ';' || isSpace b) s = s := hclean
  have hcolumns : (parseCreate s rest (upper k)).columns = (getLines (ch ',') defs).filterMap parseCol := by
    simp only [parseCreate, hlist]
  have hstmt : parseCreate s rest (upper k) = ⟨table.caps, (getLines (ch ',') defs).filterMap parseCol⟩ := by
    rw [← show CreateStmt.mk _ _ = parseCreate s rest (upper k) from rfl]
    exact congrArg₂ CreateStmt.mk (htable s _) hcolumns
  rw [hk] at hstmt
  simp only [parse, hclean', hext, hk, if_true, hstmt]
  exact if_pos (by simp [isValid, table.caps_ne_nil, hne])

end Create

theorem parse_createTexts {t : CreateTree} (hs : s ∈ t.texts) (hclean : dropEnd isJunk s = s) :
    parse s = (Tree.create t).statement := by
  rw [t.texts_eq] at hs
  obtain ⟨defs, hdefs, hparse⟩ := parse_create (fun _ h => notMem_defs h) hs hclean
  have hcolumns := filterMap_getLines t.columns_ne_nil hdefs
  have hne : t.columns.map (fun c => (⟨c.name.caps, c.type.name.caps⟩ : CreateCol)) ≠ [] := by
    simpa using t.columns_ne_nil
  rw [hcolumns] at hparse
  exact hparse hne

end FlexQL.Parser
