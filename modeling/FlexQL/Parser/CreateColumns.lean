import FlexQL.Parser.RoundTrip

/-!
# Columns with two arguments

The parser cuts the list of a `CREATE` at every comma, also at the one between the arguments of
`DECIMAL(10, 2)`. The fragment behind that comma makes a column of its own when it has two words.
-/

namespace FlexQL.Parser

open Text Language

/-! ## Definitions -/

def argument : Language UInt8 := {ds | ds ≠ [] ∧ ∀ b ∈ ds, isDigit b = true}

/-- `name TYPE(n`. -/
def openingTexts (name type : Text) : Language UInt8 :=
  gap * exactly name * space * exactly type * gap * exactly (str "(") * gap * argument * gap

/-- The closing parenthesis and constraint words. -/
def endingTexts : Language UInt8 :=
  exactly (str ")") * within fun b => isNameByte b = true ∨ isBlank b = true

/-- `name TYPE(n)` or `name TYPE(p, s)` with constraint words, as it is spelled. -/
structure Definition where
  name : Text
  type : Text
  /-- Up to the end of the first argument. -/
  opening : Text
  /-- The second argument. -/
  second : Option Text
  ending : Text
  names : ∀ n ∈ [name, type], n ≠ [] ∧ ∀ b ∈ n, isNameByte b = true
  opening_mem : opening ∈ openingTexts name type
  second_mem : ∀ x ∈ second, x ∈ gap * argument * gap
  ending_mem : ending ∈ endingTexts

namespace Definition

def text (d : Definition) : Text := d.opening ++ d.second.elim d.ending fun x => ch ',' :: (x ++ d.ending)

/-- What the commas leave of the definition. -/
def pieces (d : Definition) : List Text := d.second.elim [d.opening ++ d.ending] fun x => [d.opening, x ++ d.ending]

/-- The column that the definition asks for. -/
def column (d : Definition) : CreateCol := ⟨upper d.name, upper d.type⟩

/-- Behind the comma between two arguments there is at most one word. -/
def Harmless (d : Definition) : Prop := ∀ x ∈ d.second, (words (x ++ d.ending)).length ≤ 1

end Definition

/-- The list of a `CREATE`. -/
def definitionsText (ds : List Definition) : Text := (str ",").intercalate (ds.map Definition.text)

/-- The statement has the columns of the definitions, and no other. -/
def OneColumnEach (text : Text) (ds : List Definition) : Prop :=
  (parse text).type = .create ∧ (parse text).createStmt.columns = ds.map Definition.column

variable {d : Definition} {ds : List Definition} {s x : Text} {c : UInt8}

/-! ## Pieces -/

theorem isDefByte_argument {x : Text} (hx : x ∈ argument) : ∀ b ∈ x, IsDefByte b := by
  intro b hb
  have hdigit := hx.2 b hb
  exact Or.inl (by simp [isNameByte, hdigit])

theorem isDefByte_opening (d : Definition) : ∀ b ∈ d.opening, IsDefByte b := by
  have hgap := gap_le_within IsDefByte.of_isBlank
  have hspace := space_le_within IsDefByte.of_isBlank
  have hname (n : Text) (hn : n ∈ [d.name, d.type]) : exactly n ≤ within IsDefByte := by
    rintro _ rfl b hb
    exact Or.inl ((d.names _ hn).2 b hb)
  exact mul_le_within (mul_le_within (mul_le_within (mul_le_within (mul_le_within (mul_le_within (mul_le_within
    (mul_le_within hgap (hname d.name (by simp))) hspace) (hname d.type (by simp))) hgap) opening_le_within) hgap)
    (fun _ hx => isDefByte_argument hx)) hgap d.opening_mem

theorem isDefByte_ending (d : Definition) : ∀ b ∈ d.ending, IsDefByte b := by
  have hwords : (within fun b => isNameByte b = true ∨ isBlank b = true) ≤ within IsDefByte :=
    fun _ hs b hb => (hs b hb).elim (IsDefByte.of_isNameByte b) (IsDefByte.of_isBlank b)
  exact mul_le_within closing_le_within hwords d.ending_mem

theorem isDefByte_second (hx : x ∈ d.second) : ∀ b ∈ x, IsDefByte b := by
  have hgap := gap_le_within IsDefByte.of_isBlank
  exact mul_le_within (mul_le_within hgap fun _ hx => isDefByte_argument hx) hgap (d.second_mem x hx)

theorem dot_notMem_text (d : Definition) : ch '.' ∉ d.text := by
  have hopening : ch '.' ∉ d.opening := fun h => absurd (isDefByte_opening d _ h) (by decide)
  have hending : ch '.' ∉ d.ending := fun h => absurd (isDefByte_ending d _ h) (by decide)
  unfold Definition.text
  cases hsecond : d.second with
  | none => simp [hopening, hending]
  | some x =>
    have hx : ch '.' ∉ x := fun h => absurd (isDefByte_second hsecond _ h) (by decide)
    have hcomma : ch '.' ≠ ch ',' := by decide
    simp [hopening, hending, hx, hcomma]

theorem comma_notMem_of_isDefByte (h : ∀ b ∈ s, IsDefByte b) : ch ',' ∉ s :=
  fun hc => absurd (h _ hc) (by decide)

theorem ending_ne_nil (d : Definition) : d.ending ≠ [] := by
  obtain ⟨k, rfl, c, -, hending⟩ := d.ending_mem
  rw [← hending]
  exact List.cons_ne_nil _ _

theorem getLines_singleton (hs : ch ',' ∉ s) (hne : s ≠ []) : getLines (ch ',') s = [s] := by
  have hlast : s.getLast? ≠ some (ch ',') := fun h => hs (List.mem_of_getLast? h)
  rw [getLines_eq_splitOn hne hlast, List.splitOn_eq_singleton hs]

theorem getLines_text (d : Definition) : getLines (ch ',') d.text = d.pieces := by
  have hopening := comma_notMem_of_isDefByte (isDefByte_opening d)
  have hending := comma_notMem_of_isDefByte (isDefByte_ending d)
  unfold Definition.text Definition.pieces
  cases hsecond : d.second with
  | none =>
    rw [Option.elim_none, Option.elim_none]
    exact getLines_singleton (by simp [hopening, hending]) (by simp [ending_ne_nil])
  | some x =>
    have hx := comma_notMem_of_isDefByte (isDefByte_second hsecond)
    rw [Option.elim_some, Option.elim_some, getLines_append hopening,
      getLines_singleton (by simp [hx, hending]) (by simp [ending_ne_nil])]

theorem getLines_text_append (d : Definition) (s : Text) :
    getLines (ch ',') (d.text ++ ch ',' :: s) = d.pieces ++ getLines (ch ',') s := by
  have hopening := comma_notMem_of_isDefByte (isDefByte_opening d)
  have hending := comma_notMem_of_isDefByte (isDefByte_ending d)
  unfold Definition.text Definition.pieces
  cases hsecond : d.second with
  | none =>
    rw [Option.elim_none, Option.elim_none, getLines_append (by simp [hopening, hending])]
    rfl
  | some x =>
    have hx := comma_notMem_of_isDefByte (isDefByte_second hsecond)
    rw [Option.elim_some, Option.elim_some, List.append_assoc, List.cons_append, getLines_append hopening,
      getLines_append (by simp [hx, hending])]
    rfl

/-- The commas cut the list into the pieces of its definitions. -/
theorem getLines_definitionsText (ds : List Definition) :
    getLines (ch ',') (definitionsText ds) = ds.flatMap Definition.pieces := by
  induction ds with
  | nil => rfl
  | cons d ds ih =>
    cases ds with
    | nil => simpa [definitionsText] using getLines_text d
    | cons d' ds =>
      have hsplit : definitionsText (d :: d' :: ds) = d.text ++ ch ',' :: definitionsText (d' :: ds) := by
        rw [definitionsText, List.map_cons, List.map_cons, List.intercalate_cons_cons, List.append_assoc]
        rfl
      rw [hsplit, getLines_text_append, ih]
      rfl

/-! ## Columns -/

/-- Two words make a column. -/
theorem parseCol_eq_none : parseCol s = none ↔ (words s).length ≤ 1 := by
  have hwords := words_eq_extract s
  cases hext : extract s with
  | none =>
    rw [hext] at hwords
    simp [parseCol, hext, hwords]
  | some r =>
    rw [hext] at hwords
    change words s = r.1 :: words r.2 at hwords
    have hwords' := words_eq_extract r.2
    cases hext' : extract r.2 with
    | none =>
      rw [hext'] at hwords'
      simp [parseCol, hext, hext', hwords, hwords']
    | some r' =>
      rw [hext'] at hwords'
      simp [parseCol, hext, hext', hwords, hwords']

theorem parseCol_opening (d : Definition) {y : Text} (hy : ∀ b ∈ y, IsDefByte b) :
    parseCol (d.opening ++ y) = some d.column := by
  have hbytes := isDefByte_opening d
  have hmem := d.opening_mem
  simp only [openingTexts, mul_assoc, mem_mul] at hmem
  obtain ⟨g, hg, _, ⟨n, hn, _, ⟨g', hg', _, ⟨m, hm, _, ⟨g₂, hg₂, _, ⟨k, hk, r, -, rfl⟩, rfl⟩, rfl⟩, rfl⟩, rfl⟩,
    hopening⟩ := hmem
  obtain rfl : n = d.name := hn
  obtain rfl : m = d.type := hm
  have hafter : g₂ ++ (k ++ (r ++ y)) ∈ afterName :=
    mul_le_starting gap_le_afterName (paren_le_afterName _) (append_mem_mul hg₂ (append_mem_mul hk (Set.mem_univ _)))
  have hsplit : d.opening ++ y = g ++ (d.name ++ (g' ++ (d.type ++ (g₂ ++ (k ++ (r ++ y)))))) := by
    rw [← hopening]
    simp
  have hdot : ch '.' ∉ g₂ ++ (k ++ (r ++ y)) := by
    intro h
    have hin : ch '.' ∈ d.opening ++ y := by
      rw [hsplit]
      simp only [List.mem_append] at h ⊢
      exact Or.inr (Or.inr (Or.inr (Or.inr h)))
    have hbyte : IsDefByte (ch '.') := (List.mem_append.mp hin).elim (hbytes _) (hy _)
    exact absurd hbyte (by decide)
  obtain ⟨⟨hn, hn'⟩, hm, hm'⟩ : (d.name ≠ [] ∧ ∀ b ∈ d.name, isNameByte b = true) ∧
      d.type ≠ [] ∧ ∀ b ∈ d.type, isNameByte b = true := by simpa using d.names
  rw [hsplit]
  exact parseCol_names hn' hn hm' hm hg hg' hafter hdot

/-- The columns that are no definitions. -/
def Definition.phantoms (d : Definition) : List CreateCol := d.second.elim [] fun x => (parseCol (x ++ d.ending)).toList

theorem filterMap_pieces (d : Definition) : d.pieces.filterMap parseCol = d.column :: d.phantoms := by
  unfold Definition.pieces Definition.phantoms
  cases hsecond : d.second with
  | none =>
    simp [parseCol_opening d (isDefByte_ending d)]
  | some x =>
    have hopening := parseCol_opening d (y := []) (by simp)
    rw [List.append_nil] at hopening
    cases hparse : parseCol (x ++ d.ending) <;> simp [hopening, hparse]

theorem phantoms_eq_nil : d.phantoms = [] ↔ d.Harmless := by
  unfold Definition.phantoms Definition.Harmless
  cases hsecond : d.second with
  | none => simp
  | some x => simp [← parseCol_eq_none]

/-- Phantom columns make the list longer. -/
theorem flatMap_columns_eq : (ds.flatMap fun d => d.column :: d.phantoms) = ds.map Definition.column ↔
    ∀ d ∈ ds, d.phantoms = [] := by
  have hlength (ds : List Definition) : ds.length ≤ (ds.flatMap fun d => d.column :: d.phantoms).length := by
    induction ds with
    | nil => exact le_rfl
    | cons d ds ih =>
      simp only [List.flatMap_cons, List.length_append, List.length_cons]
      omega
  induction ds with
  | nil => simp
  | cons d ds ih =>
    rw [List.forall_mem_cons, List.flatMap_cons, List.map_cons, List.cons_append, List.cons_eq_cons]
    constructor
    · rintro ⟨-, heq⟩
      have hcount := congrArg List.length heq
      rw [List.length_append, List.length_map] at hcount
      have hnil : d.phantoms = [] := List.length_eq_zero_iff.mp (by have := hlength ds; omega)
      rw [hnil] at heq
      exact ⟨hnil, ih.mp heq⟩
    · rintro ⟨hnil, hrest⟩
      rw [hnil]
      exact ⟨rfl, ih.mpr hrest⟩

/-! ## The main result -/

/-- The list is read as one column for each definition exactly when no text between the comma of two
arguments and the next comma has two words. -/
theorem oneColumnEach_iff (text : Text) (flag : Bool) (table : Ident) (ds : List Definition) (hne : ds ≠ [])
    (htext : dropEnd isJunk text ∈ createTexts flag table (exactly (definitionsText ds))) :
    OneColumnEach text ds ↔ ∀ d ∈ ds, d.Harmless := by
  have hclean : dropEnd isJunk (dropEnd isJunk text) = dropEnd isJunk text :=
    dropEnd_eq_self fun x hx => getLast?_dropEnd hx
  have hdots : ∀ defs ∈ exactly (definitionsText ds), ch '.' ∉ defs := by
    rintro _ rfl hdot
    rcases mem_intercalate hdot with hcomma | ⟨_, hd, hdot⟩
    · exact absurd hcomma (by decide)
    · obtain ⟨d, -, rfl⟩ := List.mem_map.mp hd
      exact dot_notMem_text d hdot
  obtain ⟨_, rfl, hparse⟩ := parse_create hdots htext hclean
  have hcolumns : (getLines (ch ',') (definitionsText ds)).filterMap parseCol =
      ds.flatMap fun d => d.column :: d.phantoms := by
    rw [getLines_definitionsText, List.filterMap_flatMap]
    exact List.flatMap_congr fun d _ => filterMap_pieces d
  obtain ⟨d, ds, rfl⟩ := List.exists_cons_of_ne_nil hne
  rw [hcolumns, parse_dropEnd] at hparse
  rw [OneColumnEach, hparse (by simp)]
  simp only [true_and, flatMap_columns_eq, phantoms_eq_nil]

theorem mem_openingTexts (name type : Text) {n : Text} (hn : n ∈ argument) :
    name ++ (str " " ++ (type ++ (str "(" ++ n))) ∈ openingTexts name type := by
  have hmem := append_mem_mul nil_mem_gap (append_mem_mul (show name ∈ exactly name from rfl)
    (append_mem_mul blank_mem_space (append_mem_mul (show type ∈ exactly type from rfl) (append_mem_mul nil_mem_gap
      (append_mem_mul (show str "(" ∈ exactly (str "(") from rfl)
        (append_mem_mul nil_mem_gap (append_mem_mul hn nil_mem_gap)))))))
  simpa only [openingTexts, mul_assoc, List.nil_append, List.append_nil] using hmem

/-- `A DECIMAL(10, 2)` and `A DECIMAL(10, 2) NOT NULL`. -/
def decimalColumn (notNull : Bool) : Definition where
  name := str "A"
  type := str "DECIMAL"
  opening := str "A" ++ (str " " ++ (str "DECIMAL" ++ (str "(" ++ str "10")))
  second := some (str " " ++ str "2" ++ [])
  ending := str ")" ++ if notNull then str " NOT NULL" else []
  names := by decide +kernel
  opening_mem := mem_openingTexts _ _ ⟨by decide, by decide +kernel⟩
  second_mem := by
    rintro _ ⟨⟩
    exact append_mem_mul (append_mem_mul blank_mem_space.1
      (show str "2" ∈ argument from ⟨by decide, by decide +kernel⟩)) nil_mem_gap
  ending_mem := append_mem_mul rfl (show ∀ b ∈ _, isNameByte b = true ∨ isBlank b = true by
    cases notNull <;> decide +kernel)

/-- A list of columns behind the name of a table. -/
theorem mem_createTexts (table : Ident) (defs : Text) :
    str "CREATE" ++ (str " " ++ (str "TABLE" ++ (str " " ++ (table.text ++ (str " " ++ (str "(" ++ (defs ++ str ")"))))))) ∈
      createTexts false table (exactly defs) := by
  have hmem := append_mem_mul nil_mem_gap (append_mem_mul (mem_keyword (k := "CREATE") (by decide))
    (append_mem_mul blank_mem_space (append_mem_mul (mem_keyword (k := "TABLE") (by decide))
      (append_mem_mul blank_mem_space (append_mem_mul (show [] ∈ ifNotExistsTexts false from rfl)
        (append_mem_mul (show table.text ∈ exactly table.text from rfl) (append_mem_mul blank_mem_space.1
          (append_mem_mul (show str "(" ∈ exactly (str "(") from rfl) (append_mem_mul
            (show defs ∈ exactly defs from rfl) (show str ")" ∈ exactly (str ")") from rfl))))))))))
  simpa only [createTexts, mul_assoc, List.nil_append] using hmem

/-- `M`. -/
def tableM : Ident := ⟨str "M", by decide, by decide +kernel, by decide⟩

theorem oneColumnEach_decimal : OneColumnEach (str "CREATE TABLE M (A DECIMAL(10, 2))") [decimalColumn false] := by
  refine (oneColumnEach_iff _ false tableM _ (by simp) ?_).mpr ?_
  · exact mem_createTexts tableM (definitionsText [decimalColumn false])
  · rw [List.forall_mem_singleton]
    rintro _ ⟨⟩
    decide

/-- `NOT` behind the arguments makes a second column. -/
theorem not_oneColumnEach_not_null :
    dropEnd isJunk (str "CREATE TABLE M (A DECIMAL(10, 2) NOT NULL)") ∈
        createTexts false tableM (exactly (definitionsText [decimalColumn true])) ∧
      (parse (str "CREATE TABLE M (A DECIMAL(10, 2) NOT NULL)")).createStmt.columns =
        [⟨str "A", str "DECIMAL"⟩, ⟨str "2)", str "NOT"⟩] ∧
      ¬ OneColumnEach (str "CREATE TABLE M (A DECIMAL(10, 2) NOT NULL)") [decimalColumn true] := by
  have hcolumns : (parse (str "CREATE TABLE M (A DECIMAL(10, 2) NOT NULL)")).createStmt.columns =
      [⟨str "A", str "DECIMAL"⟩, ⟨str "2)", str "NOT"⟩] := by decide
  refine ⟨?_, hcolumns, fun h => ?_⟩
  · exact mem_createTexts tableM (definitionsText [decimalColumn true])
  · have hlength := congrArg List.length (hcolumns.symm.trans h.2)
    exact absurd hlength (by decide)

end FlexQL.Parser
