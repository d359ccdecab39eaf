import FlexQL.Executor.InsertAtomic
import FlexQL.Executor.Literals
import FlexQL.Parser.Coverage

/-!
# The texts of insertions

An `INSERT` with tuples of literals, spelled with any white space around its tokens. The parser and
`exec_insert` cut the text at the first `VALUES`, at parentheses and at commas, and the tuples come
out as they were written.
-/

namespace FlexQL.Executor

open Text Language Table Fallible Runs FlexQL.Parser

/-! ## Tuples and their texts -/

/-- A number that fits into an `int64_t`, as a text. -/
structure Numeral where
  text : Text
  value : ℤ
  denotes : intLiteral text = some value

inductive Literal
  | number (n : Numeral)
  | string (content : Text)

def Literal.text : Literal → Text
  | .number n => n.text
  | .string content => quoted content

/-- The value that `exec_insert` should pass on. -/
def Literal.value (p : Platform) : Literal → Value
  | .number n => ⟨.decimal, BitVec.ofInt 64 n.value, []⟩
  | .string content => ⟨.varchar, p.uninitialised, content⟩

/-- The column takes the literal. -/
def Literal.Fits (d : ColumnDef) : Literal → Prop
  | .number _ => d.type = .decimal
  | .string _ => d.type = .varchar

/-- The byte is in no string. -/
def Literal.Without (b : UInt8) : Literal → Prop
  | .number _ => True
  | .string content => b ∉ content

instance (b : UInt8) : DecidablePred (Literal.Without b)
  | .number _ => isTrue trivial
  | .string content => inferInstanceAs (Decidable (b ∉ content))

def rowOf (p : Platform) (ls : List Literal) : Row := ⟨ls.map (Literal.value p)⟩

def whites : Language UInt8 := within fun b => isSpace b = true

def whites₁ : Language UInt8 := {g | g ∈ whites ∧ g ≠ []}

def Literal.texts (l : Literal) : Language UInt8 := whites * (exactly l.text * whites)

def valuesTexts (ls : List Literal) : Language UInt8 := sepBy comma (ls.map Literal.texts)

def tupleTexts (ls : List Literal) : Language UInt8 :=
  whites * (exactly (str "(") * (valuesTexts ls * (exactly (str ")") * whites)))

def tuplesTexts (tuples : List (List Literal)) : Language UInt8 := sepBy comma (tuples.map tupleTexts)

def insertTexts (table : Text) (tuples : List (List Literal)) : Language UInt8 :=
  whites * exactly (str "INSERT") * whites₁ * exactly (str "INTO") * whites₁ * exactly table * whites₁ *
    exactly (str "VALUES") * tuplesTexts tuples

variable {p : Platform} {e : Executor} {t : Table} {a b r s x : Text} {c : UInt8} {l : Literal}
  {ls : List Literal} {schema : Schema}

/-! ## Literals -/

theorem Numeral.bytes (n : Numeral) : ∀ b ∈ n.text, isDigit b = true ∨ b = 43 ∨ b = 45 := by
  have hdenotes := n.denotes
  simp only [intLiteral, Option.ite_none_right_eq_some] at hdenotes
  have hdigits := List.all_eq_true.mp hdenotes.1.2.1
  intro b hb
  rcases sign_cases n.text with ⟨digits, htext, hsign⟩ | ⟨digits, htext, hsign⟩ | hsign
  · rw [htext, List.mem_cons] at hb
    rw [hsign] at hdigits
    exact hb.elim (fun h => Or.inr (Or.inr h)) fun h => Or.inl (hdigits b h)
  · rw [htext, List.mem_cons] at hb
    rw [hsign] at hdigits
    exact hb.elim (fun h => Or.inr (Or.inl h)) fun h => Or.inl (hdigits b h)
  · rw [hsign] at hdigits
    exact Or.inl (hdigits b hb)

theorem Numeral.notMem (n : Numeral) (hdigit : isDigit c = false) (hplus : c ≠ 43) (hminus : c ≠ 45) :
    c ∉ n.text := by
  intro h
  rcases n.bytes c h with h | h | h
  · simp [hdigit] at h
  · exact hplus h
  · exact hminus h

theorem Numeral.isSpace (n : Numeral) : ∀ b ∈ n.text, Text.isSpace b = false := by
  intro b hb
  rcases n.bytes b hb with h | rfl | rfl
  · exact isSpace_of_isDigit h
  · rfl
  · rfl

theorem Numeral.ne_nil (n : Numeral) : n.text ≠ [] := by
  intro h
  have hdenotes := n.denotes
  have hnone : intLiteral [] = none := by decide
  rw [h, hnone] at hdenotes
  cases hdenotes

theorem notMem_whites (hspace : isSpace c = false) {g : Text} (hg : g ∈ whites) : c ∉ g := by
  intro hc
  simp [hg c hc] at hspace

theorem Literal.ne_nil (l : Literal) : l.text ≠ [] := by
  cases l with
  | number n => exact n.ne_nil
  | string content => exact List.cons_ne_nil _ _

/-- The white space around a literal is taken off. -/
theorem trim_texts (hs : s ∈ l.texts) : trim isSpace s = l.text := by
  obtain ⟨g, hg, _, ⟨x, rfl, g', hg', rfl⟩, rfl⟩ := hs
  have hquote : isSpace (ch '\'') = false := by decide
  cases l with
  | number n =>
    exact trim_append isSpace hg hg' (fun b hb => n.isSpace b (List.mem_of_head? hb))
      fun b hb => n.isSpace b (List.mem_of_getLast? hb)
  | string content =>
    refine trim_append isSpace hg hg' (fun b hb => ?_) fun b hb => ?_
    · obtain rfl : ch '\'' = b := Option.some.inj hb
      exact hquote
    · have hlast : (quoted content).getLast? = some (ch '\'') := by
        rw [quoted, ← List.cons_append, List.getLast?_concat]
      obtain rfl : ch '\'' = b := Option.some.inj (hlast.symm.trans hb)
      exact hquote

/-- A literal is read as its value. -/
theorem parseValue_texts {d : ColumnDef} (hfits : l.Fits d) (hs : s ∈ l.texts) :
    parseValue p d.type s = .ok (l.value p) := by
  cases l with
  | number n =>
    obtain ⟨v, hv, hn⟩ := stoll_literal n.denotes
    have hvalue : BitVec.ofInt 64 n.value = v := by rw [← hn, BitVec.ofInt_toInt]
    rw [show d.type = .decimal from hfits, parseValue, trim_texts hs]
    simp only [Literal.text, hv, Literal.value, hvalue]
    rfl
  | string content =>
    rw [show d.type = .varchar from hfits, parseValue, trim_texts hs]
    simp only [Literal.text, unquote_quoted, Literal.value]

theorem parseValues_texts (hfits : List.Forall₂ Literal.Fits schema ls) {pieces : List Text}
    (hpieces : List.Forall₂ (fun s l => s ∈ l.texts) pieces ls) :
    parseValues p schema pieces = .ok (.ok (ls.map (Literal.value p))) := by
  induction hfits generalizing pieces with
  | nil =>
    cases hpieces
    rfl
  | cons hd _ ih =>
    cases hpieces with
    | cons hs hpieces =>
      simp only [parseValues, parseValue_texts hd hs, ih hpieces, List.map_cons]
      rfl

/-- A byte that is no part of the spelling of a literal and is not in its string. -/
theorem notMem_texts (hspace : isSpace c = false) (hquote : c ≠ ch '\'') (hdigit : isDigit c = false)
    (hplus : c ≠ 43) (hminus : c ≠ 45) (hl : l.Without c) (hs : s ∈ l.texts) : c ∉ s := by
  obtain ⟨g, hg, _, ⟨x, rfl, g', hg', rfl⟩, rfl⟩ := hs
  have hmem : c ∉ l.text := by
    cases l with
    | number n => exact n.notMem hdigit hplus hminus
    | string content =>
      simp only [Literal.text, quoted, List.mem_cons, List.mem_append, List.not_mem_nil, or_false, not_or]
      exact ⟨hquote, hl, hquote⟩
  change c ∉ g ++ (l.text ++ g')
  simp [notMem_whites hspace hg, notMem_whites hspace hg', hmem]

/-! ## Tuples -/

theorem after_append (ha : c ∉ a) (b : Text) : after c (a ++ c :: b) = some b := by
  induction a with
  | nil => simp [after]
  | cons x a ih =>
    simp only [List.mem_cons, not_or] at ha
    rw [List.cons_append, after, if_neg (Ne.symm ha.1), ih ha.2]

/-- What stands between the parentheses, each with what stands before it. -/
def joined (pieces : List (Text × Text)) : Text :=
  pieces.flatMap fun q => q.1 ++ (ch '(' :: (q.2 ++ [ch ')']))

/-- The pieces are what a search for parentheses finds. -/
def Closed (pieces : List (Text × Text)) : Prop := ∀ q ∈ pieces, ch '(' ∉ q.1 ∧ ch ')' ∉ q.2

theorem exists_joined_eq (pieces : List (Text × Text)) (hne : pieces ≠ []) :
    ∃ u, joined pieces = u ++ [ch ')'] := by
  obtain ⟨init, q, rfl⟩ := List.eq_nil_or_concat' pieces |>.resolve_left hne
  exact ⟨joined init ++ (q.1 ++ ch '(' :: q.2), by simp [joined]⟩

theorem length_joined (pieces : List (Text × Text)) : pieces.length ≤ (joined pieces).length := by
  induction pieces with
  | nil => exact Nat.zero_le _
  | cons q pieces ih =>
    rw [joined] at ih
    simp only [joined, List.flatMap_cons, List.length_append, List.length_cons]
    omega

theorem tuplesFrom_joined {pieces : List (Text × Text)} (h : Closed pieces) {fuel : ℕ}
    (hfuel : pieces.length ≤ fuel) : tuplesFrom fuel (joined pieces) = pieces.map Prod.snd := by
  induction pieces generalizing fuel with
  | nil => cases fuel <;> rfl
  | cons q pieces ih =>
    obtain ⟨fuel, rfl⟩ : ∃ n, fuel = n + 1 := Nat.exists_eq_add_one.mpr (by simp at hfuel; omega)
    obtain ⟨hopen, hclose⟩ := h q List.mem_cons_self
    have hjoined : joined (q :: pieces) = q.1 ++ ch '(' :: (q.2 ++ ch ')' :: joined pieces) := by
      simp [joined]
    have hcut : cut (ch ')') (q.2 ++ ch ')' :: joined pieces) = some (q.2, joined pieces) :=
      cut_eq_some.mpr ⟨rfl, hclose⟩
    have hrest : tuplesFrom fuel (joined pieces) = pieces.map Prod.snd :=
      ih (fun q hq => h q (List.mem_cons_of_mem _ hq)) (by simpa using hfuel)
    rw [hjoined, tuplesFrom, after_append hopen]
    simp only [hcut, hrest, List.map_cons]

/-- The tuples of a text that ends behind a closing parenthesis. -/
theorem tuples_joined {pieces : List (Text × Text)} (h : Closed pieces) :
    tuples (joined pieces) = pieces.map Prod.snd := tuplesFrom_joined h (length_joined pieces)

theorem notMem_valuesTexts (hspace : isSpace c = false) (hquote : c ≠ ch '\'') (hcomma : c ≠ ch ',')
    (hdigit : isDigit c = false) (hplus : c ≠ 43) (hminus : c ≠ 45) (hls : ∀ l ∈ ls, l.Without c)
    (hs : s ∈ valuesTexts ls) : c ∉ s := by
  have hle : valuesTexts ls ≤ within fun x => x ≠ c := by
    apply sepBy_le_within
    · rintro _ rfl x hx
      obtain rfl : x = ch ',' := List.mem_singleton.mp hx
      exact Ne.symm hcomma
    · intro m hm x hx b hb hbc
      obtain ⟨l, hl, rfl⟩ := List.mem_map.mp hm
      exact notMem_texts hspace hquote hdigit hplus hminus (hls l hl) hx (hbc ▸ hb)
  exact fun hc => hle hs c hc rfl

/-- The text of one tuple behind `r`. -/
theorem exists_piece (hclose : ∀ l ∈ ls, l.Without (ch ')')) (hr : ch '(' ∉ r) (hs : s ∈ tupleTexts ls) :
    ∃ q g, r ++ s = joined [q] ++ g ∧ g ∈ whites ∧ Closed [q] ∧ q.2 ∈ valuesTexts ls := by
  obtain ⟨g, hg, _, ⟨o, ho, _, ⟨x, hx, _, ⟨k, hk, g', hg', rfl⟩, rfl⟩, rfl⟩, rfl⟩ := hs
  obtain rfl : o = [ch '('] := ho
  obtain rfl : k = [ch ')'] := hk
  refine ⟨(r ++ g, x), g', ?_, hg', ?_, hx⟩
  · change r ++ (g ++ ([ch '('] ++ (x ++ ([ch ')'] ++ g')))) = _
    simp [joined]
  · intro q hq
    obtain rfl := List.mem_singleton.mp hq
    refine ⟨?_, notMem_valuesTexts (by decide) (by decide) (by decide) (by decide) (by decide) (by decide)
      hclose hx⟩
    rw [List.mem_append, not_or]
    exact ⟨hr, notMem_whites (by decide) hg⟩

/-- Texts of tuples are cut at the parentheses. What stands behind the last one is white space. -/
theorem exists_pieces {tuples : List (List Literal)} (hne : tuples ≠ [])
    (hclose : ∀ ls ∈ tuples, ∀ l ∈ ls, l.Without (ch ')')) (hr : ch '(' ∉ r) (hs : s ∈ tuplesTexts tuples) :
    ∃ pieces g, r ++ s = joined pieces ++ g ∧ g ∈ whites ∧ Closed pieces ∧
      List.Forall₂ (fun q ls => q.2 ∈ valuesTexts ls) pieces tuples := by
  induction tuples generalizing r s with
  | nil => exact absurd rfl hne
  | cons ls tuples ih =>
    have hhead := hclose ls List.mem_cons_self
    cases tuples with
    | nil =>
      obtain ⟨q, g, heq, hg, hclosed, hq⟩ := exists_piece hhead hr hs
      exact ⟨[q], g, heq, hg, hclosed, List.Forall₂.cons hq List.Forall₂.nil⟩
    | cons ms tuples =>
      obtain ⟨s₁, hs₁, _, ⟨k, hk, s₂, hs₂, rfl⟩, rfl⟩ := hs
      obtain rfl : k = [ch ','] := hk
      obtain ⟨q, g, heq, hg, hclosed, hq⟩ := exists_piece hhead hr hs₁
      have hr' : ch '(' ∉ g ++ [ch ','] := by
        rw [List.mem_append, not_or]
        exact ⟨notMem_whites (by decide) hg, by decide⟩
      obtain ⟨pieces, g', heq', hg', hclosed', hpieces⟩ := ih (by simp)
        (fun ls hls => hclose ls (List.mem_cons_of_mem _ hls)) hr' hs₂
      refine ⟨q :: pieces, g', ?_, hg', ?_, List.Forall₂.cons hq hpieces⟩
      · calc r ++ (s₁ ++ ([ch ','] ++ s₂))
          _ = joined [q] ++ (g ++ [ch ','] ++ s₂) := by rw [← List.append_assoc, heq]; simp
          _ = joined (q :: pieces) ++ g' := by rw [heq']; simp [joined]
      · intro q' hq'
        rcases List.mem_cons.mp hq' with rfl | hq'
        · exact hclosed q' List.mem_cons_self
        · exact hclosed' q' hq'

/-- The values of a tuple are cut at the commas. -/
theorem getLines_valuesTexts (hcomma : ∀ l ∈ ls, l.Without (ch ',')) (hs : s ∈ valuesTexts ls) :
    List.Forall₂ (fun s l => s ∈ l.texts) (getLines (ch ',') s) ls := by
  cases ls with
  | nil =>
    obtain rfl : s = [] := hs
    exact List.Forall₂.nil
  | cons l ls =>
    have hlines := getLines_sepBy (by simp) (fun m hm x hx => ?_) hs
    · rwa [List.forall₂_map_right_iff] at hlines
    · obtain ⟨l, hl, rfl⟩ := List.mem_map.mp hm
      refine ⟨notMem_texts (by decide) (by decide) (by decide) (by decide) (by decide) (hcomma l hl) hx, ?_⟩
      rintro rfl
      obtain ⟨g, -, _, ⟨y, rfl, g', -, rfl⟩, heq⟩ := hx
      have hnil : g = [] ∧ l.text = [] ∧ g' = [] := by simpa using heq
      exact l.ne_nil hnil.2.1

/-- A tuple is read as the values of its literals. -/
theorem parseTuple_valuesTexts (hfits : List.Forall₂ Literal.Fits schema ls)
    (hcomma : ∀ l ∈ ls, l.Without (ch ',')) (hs : s ∈ valuesTexts ls) :
    parseTuple p schema s = .ok (.ok (rowOf p ls)) := by
  rw [parseTuple, parseValues_texts hfits (getLines_valuesTexts hcomma hs)]
  rfl

theorem parseTuples_valuesTexts {tuples : List (List Literal)} {ts : List Text}
    (hfits : ∀ ls ∈ tuples, List.Forall₂ Literal.Fits schema ls)
    (hcomma : ∀ ls ∈ tuples, ∀ l ∈ ls, l.Without (ch ','))
    (hs : List.Forall₂ (fun s ls => s ∈ valuesTexts ls) ts tuples) :
    List.Forall₂ (fun s ls => parseTuple p schema s = .ok (.ok (rowOf p ls))) ts tuples := by
  induction hs with
  | nil => exact List.Forall₂.nil
  | @cons s ls ts tuples hs _ ih =>
    exact List.Forall₂.cons
      (parseTuple_valuesTexts (hfits ls List.mem_cons_self) (hcomma ls List.mem_cons_self) hs)
      (ih (fun ls hls => hfits ls (List.mem_cons_of_mem _ hls))
        fun ls hls => hcomma ls (List.mem_cons_of_mem _ hls))

/-! ## Insertions -/

/-- The parts of an insertion. -/
theorem mem_insertTexts {table : Text} {tuples : List (List Literal)} (hname : ∀ b ∈ table, isNameByte b = true)
    (hne : table ≠ []) (hs : s ∈ insertTexts table tuples) :
    ∃ a v c, s = a ++ (str "VALUES" ++ v) ∧ words a = [str "INSERT", str "INTO", table] ∧ ch '(' ∉ a ∧
      a.getLast? = some c ∧ isSpace c = true ∧ v ∈ tuplesTexts tuples := by
  simp only [insertTexts, mul_assoc, mem_mul] at hs
  obtain ⟨g, hg, _, ⟨k, rfl, _, ⟨g₁, hg₁, _, ⟨k', rfl, _, ⟨g₂, hg₂, _, ⟨w, hw, _, ⟨g₃, hg₃, _, ⟨k'', rfl, v, hv, rfl⟩,
    rfl⟩, rfl⟩, rfl⟩, rfl⟩, rfl⟩, rfl⟩, rfl⟩ := hs
  obtain rfl : w = table := hw
  have hword : IsWord w := ⟨hne, fun b hb => isSpace_of_isNameByte (hname b hb)⟩
  have hinsert : IsWord (str "INSERT") := isWord_of_mem_keywords (by decide)
  have hinto : IsWord (str "INTO") := isWord_of_mem_keywords (by decide)
  refine ⟨g ++ (str "INSERT" ++ (g₁ ++ (str "INTO" ++ (g₂ ++ (w ++ g₃))))), v, g₃.getLast hg₃.2, by simp, ?_,
    ?_, ?_, hg₃.1 _ (List.getLast_mem hg₃.2), hv⟩
  · rw [words_space_append hg, words_append_space_append hg₁.1 hg₁.2, words_append_space_append hg₂.1 hg₂.2,
      words_append_space hg₃.1, hinsert.words_eq, hinto.words_eq, hword.words_eq]
    rfl
  · have htable : ch '(' ∉ w := fun h => absurd (hname _ h) (by decide)
    have hk : ch '(' ∉ str "INSERT" := by decide
    have hk' : ch '(' ∉ str "INTO" := by decide
    simp [notMem_whites, hg, hg₁.1, hg₂.1, hg₃.1, htable, hk, hk', show isSpace (ch '(') = false by decide]
  · simp [List.getLast?_append, List.getLast?_eq_some_getLast hg₃.2]

/-- The insertion is read as the name of the table and tuples whose values are spelled in the text. -/
theorem parse_insertTexts {table : Text} {tuples : List (List Literal)}
    (hname : ∀ b ∈ table, isNameByte b = true) (hne : table ≠ []) (htuples : tuples ≠ [])
    (hclose : ∀ ls ∈ tuples, ∀ l ∈ ls, l.Without (ch ')')) (hs : s ∈ insertTexts table tuples) :
    ∃ raw, parse s = { type := .insert, insertStmt := ⟨upper table, raw⟩ } ∧
      List.Forall₂ (fun s ls => s ∈ valuesTexts ls) (Executor.tuples raw) tuples := by
  obtain ⟨a, v, c, rfl, hwords, hopen, hc, hspace, hv⟩ := mem_insertTexts hname hne hs
  obtain ⟨pieces, g, hpieces, hg, hclosed, hvalues⟩ := exists_pieces htuples hclose List.not_mem_nil hv
  obtain ⟨q, pieces, rfl⟩ := List.exists_cons_of_ne_nil fun h : pieces = [] => htuples (by
    rw [h] at hvalues
    exact List.forall₂_nil_left_iff.mp hvalues)
  have hlast : ∀ x, (a ++ (str "VALUES" ++ joined (q :: pieces))).getLast? = some x → isJunk x = false := by
    intro x hx
    obtain ⟨u, hu⟩ := exists_joined_eq (q :: pieces) (by simp)
    rw [hu, ← List.append_assoc, ← List.append_assoc, List.getLast?_concat] at hx
    cases hx
    rfl
  have hclean : dropEnd isJunk (a ++ (str "VALUES" ++ v)) = a ++ (str "VALUES" ++ joined (q :: pieces)) := by
    rw [← List.nil_append v, hpieces, ← List.append_assoc (str "VALUES"), ← List.append_assoc a]
    exact dropEnd_junk (fun b hb => by simp [isJunk, hg b hb]) hlast
  obtain ⟨r, pos, hfind, hdrop, hr⟩ := exists_behind_find (str "VALUES") a (joined (q :: pieces))
  have hraw : r ++ joined (q :: pieces) = joined ((r ++ q.1, q.2) :: pieces) := by
    simp [joined]
  refine ⟨joined ((r ++ q.1, q.2) :: pieces), ?_, ?_⟩
  · rw [← parse_dropEnd, hclean, parse_insert hwords (by decide) hc hspace hname hne (dropEnd_eq_self hlast)]
    have hbehind : (a ++ (str "VALUES" ++ joined (q :: pieces))).drop (pos + 6) =
        joined ((r ++ q.1, q.2) :: pieces) := hdrop.trans hraw
    have hne : joined ((r ++ q.1, q.2) :: pieces) ≠ [] := by simp [joined]
    simp only [hfind, Option.map_some, Option.getD_some, hbehind, if_neg hne]
  · have hfirst : ch '(' ∉ r ++ q.1 := by
      rw [List.mem_append, not_or]
      refine ⟨fun h => ?_, (hclosed q List.mem_cons_self).1⟩
      rcases hr _ h with h | h
      · exact hopen h
      · exact absurd h (by decide)
    have hclosed' : Closed ((r ++ q.1, q.2) :: pieces) := by
      intro q' hq'
      rcases List.mem_cons.mp hq' with rfl | hq'
      · exact ⟨hfirst, (hclosed q List.mem_cons_self).2⟩
      · exact hclosed q' (List.mem_cons_of_mem _ hq')
    rw [tuples_joined hclosed', List.forall₂_map_left_iff]
    cases hvalues with
    | cons hq hpieces => exact List.Forall₂.cons hq hpieces

/-! ## Printing -/

def printTuple (ls : List Literal) : Text :=
  str "(" ++ ((str ", ").intercalate (ls.map Literal.text) ++ str ")")

def printInsert (table : Text) (tuples : List (List Literal)) : Text :=
  str "INSERT" ++ (str " " ++ (str "INTO" ++ (str " " ++ (table ++ (str " " ++ (str "VALUES" ++ (str " " ++
    (str ", ").intercalate (tuples.map printTuple))))))))

theorem nil_mem_whites : [] ∈ whites := fun _ h => absurd h List.not_mem_nil

theorem blank_mem_whites : str " " ∈ whites := by
  intro b hb
  obtain rfl : b = ch ' ' := List.mem_singleton.mp hb
  decide

theorem blank_mem_whites₁ : str " " ∈ whites₁ := ⟨blank_mem_whites, by decide⟩

/-- A printed list, joined by commas and blanks. -/
theorem intercalate_mem_sepBy_comma {α : Type} {texts : α → Language UInt8} {print : α → Text}
    (h : ∀ x, ∀ g ∈ whites, g ++ print x ∈ texts x) (xs : List α) :
    (str ", ").intercalate (xs.map print) ∈ sepBy comma (xs.map texts) ∧
      (xs ≠ [] → str " " ++ (str ", ").intercalate (xs.map print) ∈ sepBy comma (xs.map texts)) := by
  have hall : List.Forall₂ (fun s l => s ∈ l ∧ str " " ++ s ∈ l) (xs.map print) (xs.map texts) := by
    rw [List.forall₂_map_left_iff, List.forall₂_map_right_iff, List.forall₂_same]
    exact fun x _ => ⟨h x [] nil_mem_whites, h x _ blank_mem_whites⟩
  have hjoin := intercalate_mem_sepBy (show str "," ∈ comma from rfl) hall
  exact ⟨hjoin.1, fun hne => hjoin.2 (by simpa using hne)⟩

theorem append_text_mem (l : Literal) {g : Text} (hg : g ∈ whites) : g ++ l.text ∈ l.texts := by
  have hmem := append_mem_mul hg (append_mem_mul (show l.text ∈ exactly l.text from rfl) nil_mem_whites)
  rwa [List.append_nil] at hmem

theorem append_printTuple_mem (ls : List Literal) {g : Text} (hg : g ∈ whites) :
    g ++ printTuple ls ∈ tupleTexts ls := by
  have hvalues := (intercalate_mem_sepBy_comma (fun l g hg => append_text_mem l hg) ls).1
  have hmem := append_mem_mul hg (append_mem_mul (show str "(" ∈ exactly (str "(") from rfl)
    (append_mem_mul hvalues (append_mem_mul (show str ")" ∈ exactly (str ")") from rfl) nil_mem_whites)))
  rwa [List.append_nil] at hmem

theorem printInsert_mem (table : Text) {tuples : List (List Literal)} (hne : tuples ≠ []) :
    printInsert table tuples ∈ insertTexts table tuples := by
  have htuples := (intercalate_mem_sepBy_comma (fun ls g hg => append_printTuple_mem ls hg) tuples).2 hne
  simp only [insertTexts, mul_assoc]
  rw [← List.nil_append (printInsert table tuples)]
  exact append_mem_mul nil_mem_whites (append_mem_mul (show str "INSERT" ∈ exactly (str "INSERT") from rfl)
    (append_mem_mul blank_mem_whites₁ (append_mem_mul (show str "INTO" ∈ exactly (str "INTO") from rfl)
      (append_mem_mul blank_mem_whites₁ (append_mem_mul (show table ∈ exactly table from rfl)
        (append_mem_mul blank_mem_whites₁
          (append_mem_mul (show str "VALUES" ∈ exactly (str "VALUES") from rfl) htuples)))))))

/-! ## The main result -/

theorem toUpper_toUpper (b : UInt8) : toUpper (toUpper b) = toUpper b := by
  by_cases hb : (97 ≤ b && b ≤ 122) = true
  · have hlower : (97 ≤ b - 32 && b - 32 ≤ 122) = false := by
      simp only [Bool.and_eq_true, decide_eq_true_eq, UInt8.le_iff_toNat_le] at hb
      have hlow : 97 ≤ b.toNat ∧ b.toNat ≤ 122 := hb
      have hsub : (b - 32).toNat = b.toNat - 32 := by
        rw [UInt8.toNat_sub_of_le _ _ (UInt8.le_iff_toNat_le.mpr (le_trans (by decide) hb.1))]
        rfl
      rw [Bool.and_eq_false_iff, decide_eq_false_iff_not, UInt8.le_iff_toNat_le, hsub]
      left
      change ¬ 97 ≤ b.toNat - 32
      omega
    rw [toUpper, toUpper, if_pos hb, hlower]
    rfl
  · rw [toUpper, toUpper, if_neg hb, if_neg hb]

theorem upper_upper (s : Text) : upper (upper s) = upper s := by
  rw [upper, upper, List.map_map]
  exact List.map_congr_left fun b _ => toUpper_toUpper b

/-- When the tuples are read as rows, the statement is a run of `insert_row` with these rows. -/
theorem exec_insert_of_rows {table raw : Text} {tuples : List (List Literal)}
    (ht : e.tables (upper table) = some t)
    (hrows : List.Forall₂ (fun tuple ls => parseTuple p t.schema tuple = .ok (.ok (rowOf p ls)))
      (Executor.tuples raw) tuples) :
    exec p e { type := .insert, insertStmt := ⟨upper table, raw⟩ } =
      (run insertStep (t, e.disk) (tuples.map (rowOf p))).map fun r =>
        (e.setTable (upper table) r.1 r.2, ⟨.returned 0 none, []⟩) := by
  have hget : e.getTable (upper table) = .ok t := by
    rw [getTable, upper_upper, ht]
  have hrun : insertTuples p (Executor.tuples raw) t e.disk =
      (run insertStep (t, e.disk) (tuples.map (rowOf p))).map fun r => (r.1, r.2, .returned 0 none) :=
    insertTuples_eq_run rfl (List.forall₂_map_right_iff.mpr hrows)
  simp only [exec, execInsert, hget, hrun, upper_upper]
  cases run insertStep (t, e.disk) (tuples.map (rowOf p)) <;> rfl

/-- An insertion of tuples that fit the columns calls `insert_row` with the rows of the tuples, one after
the other. -/
theorem insert_runs_tuples (p : Platform) (e : Executor) (t : Table) (table text : Text)
    (tuples : List (List Literal)) (hname : ∀ b ∈ table, isNameByte b = true) (hne : table ≠ [])
    (htuples : tuples ≠ []) (hfits : ∀ ls ∈ tuples, List.Forall₂ Literal.Fits t.schema ls)
    (hplain : ∀ ls ∈ tuples, ∀ l ∈ ls, l.Without (ch ',') ∧ l.Without (ch ')'))
    (ht : e.tables (upper table) = some t) (htext : text ∈ insertTexts table tuples) :
    (parse text).type = .insert ∧
      List.Forall₂ (fun tuple ls => parseTuple p t.schema tuple = .ok (.ok (rowOf p ls)))
        (Executor.tuples (parse text).insertStmt.rawValues) tuples ∧
      exec p e (parse text) = (run insertStep (t, e.disk) (tuples.map (rowOf p))).map fun r =>
        (e.setTable (upper table) r.1 r.2, ⟨.returned 0 none, []⟩) := by
  obtain ⟨raw, hparse, hvalues⟩ := parse_insertTexts hname hne htuples
    (fun ls hls l hl => (hplain ls hls l hl).2) htext
  have hrows := parseTuples_valuesTexts (p := p) hfits (fun ls hls l hl => (hplain ls hls l hl).1) hvalues
  rw [hparse]
  exact ⟨rfl, hrows, exec_insert_of_rows ht hrows⟩

/-- `(-7, X), (12, Y)` with the strings `its  (a ` and the empty one. -/
def twoTuples : List (List Literal) :=
  [[.number ⟨str "-7", -7, by decide⟩, .string (str "it's  (a ")],
    [.number ⟨str "12", 12, by decide⟩, .string []]]

theorem insert_runs_tuples_quotes :
    ∃ e t, runNew [str "CREATE TABLE MYVALUES (A DECIMAL, N VARCHAR)"] = .ok e ∧
      e.tables (str "MYVALUES") = some t ∧
      exec .reference e (parse (str "INSERT INTO MyVALUES VALUES (-7, 'it's  (a '), (12, '')")) =
        (run insertStep (t, e.disk)
          [⟨[⟨.decimal, BitVec.ofInt 64 (-7), []⟩, ⟨.varchar, Platform.reference.uninitialised, str "it's  (a "⟩]⟩,
            ⟨[⟨.decimal, 12, []⟩, ⟨.varchar, Platform.reference.uninitialised, []⟩]⟩]).map fun r =>
          (e.setTable (str "MYVALUES") r.1 r.2, ⟨.returned 0 none, []⟩) := by
  have hend : (do
      let e ← runNew [str "CREATE TABLE MYVALUES (A DECIMAL, N VARCHAR)"]
      return (e.tables (str "MYVALUES")).map Table.schema) =
      (.ok (some [⟨str "A", .decimal⟩, ⟨str "N", .varchar⟩]) : Except Fault (Option Schema)) := by decide
  obtain ⟨e, he, hend⟩ := bind_eq_ok hend
  obtain ⟨t, ht, hschema⟩ := Option.map_eq_some_iff.mp (Except.ok.inj hend)
  have hfits : ∀ ls ∈ twoTuples, List.Forall₂ Literal.Fits t.schema ls := by
    rw [hschema]
    intro ls hls
    rcases List.mem_pair.mp hls with rfl | rfl <;> exact .cons rfl (.cons rfl .nil)
  have hplain : ∀ ls ∈ twoTuples, ∀ l ∈ ls, l.Without (ch ',') ∧ l.Without (ch ')') := by
    decide
  have hmain := insert_runs_tuples .reference e t (str "MyVALUES") _ twoTuples (by decide +kernel) (by decide)
    (by decide) hfits hplain ht (printInsert_mem _ (by decide))
  exact ⟨e, t, he, ht, hmain.2.2⟩

end FlexQL.Executor
