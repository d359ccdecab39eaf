import FlexQL.Parser.RoundTrip

/-!
# What the parser leaves out

The parser accepts a text when a few fields of the statement are not empty. Here the texts are
described of which the statement accounts for every token: those that are sentences of the grammar
and are laid out in the way that the searches of the parser expect.
-/

namespace FlexQL.Parser

open Text Language

variable {a b g s w : Text} {c : UInt8}

/-! ## Sentences -/

/-- `INSERT INTO table VALUES values`, where the values begin with an opening parenthesis. The
statement keeps them as they stand. -/
structure InsertTree where
  table : Ident
  values : Text
  opened : values ∈ gap * exactly (str "(") * within fun _ => True

inductive Sentence
  | insert (t : InsertTree)
  | tree (t : Tree)

def Sentence.statement : Sentence → Statement
  | .insert t => { type := .insert, insertStmt := ⟨t.table.caps, t.values⟩ }
  | .tree t => t.statement

def InsertTree.texts (t : InsertTree) (valuesWord : Language UInt8) : Language UInt8 :=
  gap * keyword "INSERT" * space * keyword "INTO" * space * exactly t.table.text * space * valuesWord *
    exactly t.values

/-- The texts of a sentence under the grammar. -/
def Sentence.texts : Sentence → Language UInt8
  | .insert t => t.texts (keyword "VALUES")
  | .tree t => t.texts .free

/-- The layout of a sentence in which the searches of the parser find its keywords. In an `INSERT`
the first occurrence of `VALUES` has to be the keyword. -/
def Sentence.IsLayout : Sentence → Text → Prop
  | .insert t, s => s ∈ t.texts (exactly (str "VALUES")) ∧ ¬ str "VALUES" <:+: t.table.text
  | .tree t, s => s ∈ t.texts .line

/-- Under the grammar, the statement accounts for every token of the text before the white space and
the semicolons at its end. -/
def Accounted (text : Text) (stmt : Statement) : Prop :=
  ∃ sentence : Sentence, dropEnd isJunk text ∈ sentence.texts ∧ sentence.statement = stmt

/-- The text is a sentence in the layout that the parser expects. -/
def LaidOut (text : Text) : Prop := ∃ sentence : Sentence, sentence.IsLayout (dropEnd isJunk text)

/-! ## Layouts are spellings -/

theorem Sentence.IsLayout.mem_texts {sentence : Sentence} (h : sentence.IsLayout s) :
    s ∈ sentence.texts := by
  cases sentence with
  | insert t =>
    have hword : exactly (str "VALUES") ≤ keyword "VALUES" := by
      rintro _ rfl
      exact mem_keyword (by decide)
    have hle : t.texts (exactly (str "VALUES")) ≤ t.texts (keyword "VALUES") :=
      mul_le_mul' (mul_le_mul' le_rfl hword) le_rfl
    exact hle h.1
  | tree t => exact line_texts_le t h

/-! ## Insertion -/

/-- The parts of an insertion. -/
theorem mem_insertTexts {t : InsertTree} {v : Language UInt8} (hs : s ∈ t.texts v) :
    ∃ a k k' w, s = a ++ (w ++ t.values) ∧ words a = [k, k', t.table.text] ∧ upper k = str "INSERT" ∧
      upper k' = str "INTO" ∧ w ∈ v ∧ ∃ c, a.getLast? = some c ∧ isSpace c = true := by
  simp only [InsertTree.texts, mul_assoc, mem_mul] at hs
  obtain ⟨g, hg, _, ⟨k, hk, _, ⟨g₁, hg₁, _, ⟨k', hk', _, ⟨g₂, hg₂, _, ⟨T, hT, _, ⟨g₃, hg₃, _, ⟨w, hw, x, hx, rfl⟩,
    rfl⟩, rfl⟩, rfl⟩, rfl⟩, rfl⟩, rfl⟩, rfl⟩ := hs
  obtain rfl : T = t.table.text := hT
  obtain rfl : x = t.values := hx
  refine ⟨g ++ (k ++ (g₁ ++ (k' ++ (g₂ ++ (t.table.text ++ g₃))))), k, k', w, by simp, ?_, hk, hk', hw, ?_⟩
  · rw [words_space_append (isSpace_of_mem_gap hg), words_append_space_mem hg₁, words_append_space_mem hg₂,
      words_append_space (isSpace_of_mem_gap hg₃.1), (isWord_keyword hk (by decide)).words_eq,
      (isWord_keyword hk' (by decide)).words_eq, t.table.isWord.words_eq]
    rfl
  · refine ⟨g₃.getLast hg₃.2, ?_, isSpace_of_mem_gap hg₃.1 _ (List.getLast_mem hg₃.2)⟩
    simp [List.getLast?_append, List.getLast?_eq_some_getLast hg₃.2]

theorem InsertTree.values_ne_nil (t : InsertTree) : t.values ≠ [] := by
  intro h
  have hopened := t.opened
  rw [h, mul_assoc] at hopened
  obtain ⟨g, -, _, ⟨o, rfl, x, -, rfl⟩, heq⟩ := hopened
  have hlength := congrArg List.length heq
  simp [str] at hlength

/-- A text that begins with `INSERT`, another word and a name is read as the name and what stands behind
the first `VALUES`. -/
theorem parse_insert {k k' name : Text} (hwords : words a = [k, k', name]) (hk : upper k = str "INSERT")
    (hc : a.getLast? = some c) (hspace : isSpace c = true) (hname : ∀ x ∈ name, isNameByte x = true)
    (hne : name ≠ []) (hclean : dropEnd isJunk (a ++ b) = a ++ b) :
    parse (a ++ b) = (let raw := ((find (str "VALUES") (a ++ b)).map fun pos => (a ++ b).drop (pos + 6)).getD []
      { type := if raw = [] then .none else .insert, insertStmt := ⟨upper name, raw⟩ }) := by
  have hall : words (a ++ b) = k :: k' :: name :: words b := by
    obtain ⟨a, rfl⟩ := List.getLast?_eq_some_iff.mp hc
    rw [List.append_assoc, List.singleton_append, words_append_cons _ _ hspace]
    rw [words_append_space (g := [c]) (by simpa using hspace)] at hwords
    rw [hwords]
    rfl
  obtain ⟨rest, hext, hrest⟩ := extract_of_words hall
  have hclean' : dropEnd (fun b => b = ch ';' || isSpace b) (a ++ b) = a ++ b := hclean
  have htable : stripDelimiters (secondWord (str "INSERT") rest) = upper name := by
    rw [secondWord_of_words hrest]
    exact stripDelimiters_name hname
  have hcaps : upper name ≠ [] := by
    simpa [upper] using hne
  have hcreate : str "INSERT" ≠ str "CREATE" := by decide
  simp only [parse, hclean', hext, hk, hcreate, if_false, if_true, parseInsert, htable]
  cases find (str "VALUES") (a ++ b) with
  | none => simp [isValid]
  | some pos =>
    by_cases hraw : (a ++ b).drop (pos + 6) = []
    · simp [isValid, hraw]
    · simp [isValid, hraw, hcaps]

/-- An insertion is read as the name of its table and what stands behind the first `VALUES`. -/
theorem parse_insertTexts {t : InsertTree} (hs : s ∈ t.texts (keyword "VALUES"))
    (hclean : dropEnd isJunk s = s) :
    parse s = (let raw := ((find (str "VALUES") s).map fun pos => s.drop (pos + 6)).getD []
      { type := if raw = [] then .none else .insert, insertStmt := ⟨t.table.caps, raw⟩ }) := by
  obtain ⟨a, k, k', w, rfl, hwords, hk, -, -, c, hc, hspace⟩ := mem_insertTexts hs
  exact parse_insert hwords hk hc hspace t.table.nameBytes t.table.ne_nil hclean

theorem length_upper (w : Text) : (upper w).length = w.length := List.length_map ..

/-- `VALUES` occurs before the keyword in no other place than in the name of the table. -/
theorem find_values {t : InsertTree} {k k' : Text} (hwords : words a = [k, k', t.table.text])
    (hk : upper k = str "INSERT") (hk' : upper k' = str "INTO") (hc : a.getLast? = some c)
    (hspace : isSpace c = true) (htable : ¬ str "VALUES" <:+: t.table.text) (b : Text) :
    find (str "VALUES") (a ++ (str "VALUES" ++ b)) = some a.length := by
  apply find_eq_some
  intro a' b' heq
  by_contra hlt
  obtain ⟨m, rfl⟩ : a' <+: a :=
    List.prefix_of_prefix_length_le (heq ▸ List.prefix_append a' _) (List.prefix_append a _) (by omega)
  have hm : m ++ (str "VALUES" ++ b) = str "VALUES" ++ b' := by
    simpa using heq
  have hne : m ≠ [] := by
    rintro rfl
    simp at hlt
  have hvalues : IsWord (str "VALUES") := isWord_of_mem_keywords (by decide)
  rcases Nat.lt_or_ge m.length (str "VALUES").length with hlen | hlen
  · -- the white space at the end would be a letter of `VALUES`
    have hpre : m <+: str "VALUES" :=
      List.prefix_of_prefix_length_le (List.prefix_append m _) (hm ▸ List.prefix_append _ b') (by omega)
    rw [List.getLast?_append_of_ne_nil _ hne] at hc
    simp [hvalues.noSpace c (hpre.subset (List.mem_of_getLast? hc))] at hspace
  · have hpre : str "VALUES" <+: m :=
      List.prefix_of_prefix_length_le (hm ▸ List.prefix_append _ b') (List.prefix_append m _) hlen
    have hinside : str "VALUES" <:+: a' ++ m := hpre.isInfix.trans (List.suffix_append a' m).isInfix
    obtain ⟨w, hw, hin⟩ := exists_infix_of_infix hvalues hinside
    simp only [hwords, List.mem_cons, List.not_mem_nil, or_false] at hw
    rcases hw with rfl | rfl | rfl
    · have heq : str "VALUES" = w := hin.eq_of_length (by
        rw [← length_upper w, hk]
        rfl)
      rw [← heq] at hk
      exact absurd hk (by decide)
    · have hle := hin.length_le
      rw [← length_upper w, hk'] at hle
      exact absurd hle (by decide)
    · exact htable hin

theorem insert_of_isLayout {t : InsertTree} (h : (Sentence.insert t).IsLayout s)
    (hclean : dropEnd isJunk s = s) : parse s = (Sentence.insert t).statement := by
  rw [parse_insertTexts h.mem_texts hclean]
  obtain ⟨a, k, k', w, rfl, hwords, hk, hk', hw, c, hc, hspace⟩ := mem_insertTexts h.1
  obtain rfl : w = str "VALUES" := hw
  have hdrop : (a ++ (str "VALUES" ++ t.values)).drop (a.length + 6) = t.values := by
    rw [← List.append_assoc]
    apply List.drop_left'
    rw [List.length_append]
    rfl
  simp [find_values hwords hk hk' hc hspace h.2, hdrop, t.values_ne_nil, Sentence.statement]

theorem isLayout_of_insert {t : InsertTree} (hs : s ∈ (Sentence.insert t).texts)
    (hclean : dropEnd isJunk s = s) (hparse : parse s = (Sentence.insert t).statement) :
    (Sentence.insert t).IsLayout s := by
  rw [parse_insertTexts hs hclean] at hparse
  have hraw : ((find (str "VALUES") s).map fun pos => s.drop (pos + 6)).getD [] = t.values :=
    congrArg (fun stmt => stmt.insertStmt.rawValues) hparse
  cases hfind : find (str "VALUES") s with
  | none =>
    rw [hfind] at hraw
    exact absurd hraw.symm t.values_ne_nil
  | some pos =>
    rw [hfind] at hraw
    change s.drop (pos + 6) = t.values at hraw
    obtain ⟨⟨x, y, rfl, rfl⟩, hleft⟩ := find_spec hfind
    obtain rfl : y = t.values := by
      rw [← hraw, ← List.append_assoc]
      symm
      apply List.drop_left'
      rw [List.length_append]
      rfl
    simp only [Sentence.texts, InsertTree.texts, mem_mul] at hs
    obtain ⟨_, ⟨_, ⟨_, ⟨p, hp, T, hT, rfl⟩, g, hg, rfl⟩, w, hw, rfl⟩, v, hv, heq⟩ := hs
    obtain rfl : v = t.values := hv
    obtain rfl : T = t.table.text := hT
    have hlength : w.length = (str "VALUES").length := by
      rw [← length_upper w, show upper w = str "VALUES" from hw]
    rw [← List.append_assoc, List.append_left_inj] at heq
    obtain ⟨rfl, rfl⟩ := List.append_inj' heq hlength
    refine ⟨?_, ?_⟩
    · rw [← List.append_assoc]
      exact append_mem_mul (append_mem_mul (append_mem_mul (append_mem_mul hp
        (show t.table.text ∈ exactly t.table.text from rfl)) hg)
        (show str "VALUES" ∈ exactly (str "VALUES") from rfl))
        (show t.values ∈ exactly t.values from rfl)
    · -- an occurrence in the name of the table would be found first
      rintro ⟨l, r, htable⟩
      have hle := hleft (p ++ l) (r ++ (g ++ (str "VALUES" ++ t.values))) (by simp [← htable])
      have hnames := congrArg List.length htable
      simp only [List.length_append] at hle hnames
      have hpos : 0 < (str "VALUES").length := by decide
      omega

/-! ## The main result -/

theorem accounted_of_laidOut {text : Text} (h : LaidOut text) : Accounted text (parse text) := by
  obtain ⟨sentence, hlayout⟩ := h
  have hclean : dropEnd isJunk (dropEnd isJunk text) = dropEnd isJunk text :=
    dropEnd_eq_self fun x hx => getLast?_dropEnd hx
  refine ⟨sentence, hlayout.mem_texts, ?_⟩
  cases sentence with
  | insert t =>
    rw [← parse_dropEnd]
    exact (insert_of_isLayout hlayout hclean).symm
  | tree t => exact (parse_layout hlayout).symm

theorem laidOut_of_accounted {text : Text} (h : Accounted text (parse text))
    (htype : (parse text).type ≠ .select) : LaidOut text := by
  obtain ⟨sentence, htexts, hstatement⟩ := h
  have hclean : dropEnd isJunk (dropEnd isJunk text) = dropEnd isJunk text :=
    dropEnd_eq_self fun x hx => getLast?_dropEnd hx
  refine ⟨sentence, ?_⟩
  match sentence with
  | .insert t =>
    rw [← parse_dropEnd] at hstatement
    exact isLayout_of_insert htexts hclean hstatement.symm
  | .tree (.create t) => exact htexts
  | .tree (.delete table) => exact htexts
  | .tree (.select t) => exact absurd (congrArg Statement.type hstatement).symm htype

end FlexQL.Parser
