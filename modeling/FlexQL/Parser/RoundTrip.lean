import FlexQL.Parser.ReadSelect

/-!
# Printing and parsing

The canonical text of a syntax tree, and that the parser reads the tree back from it.
-/

namespace FlexQL.Parser

open Text Language

variable {g s w : Text}

/-! ## Printing -/

def TypeTree.print (t : TypeTree) : Text :=
  t.name.text ++ match t.argument with
    | none => []
    | some ds => str "(" ++ ds ++ str ")"

def ColumnTree.print (c : ColumnTree) : Text :=
  c.name.text ++ str " " ++ c.type.print ++ if c.primaryKey then str " PRIMARY KEY" else []

def CreateTree.print (t : CreateTree) : Text :=
  str "CREATE TABLE " ++ (if t.ifNotExists then str "IF NOT EXISTS " else []) ++ t.table.text ++
    str " (" ++ (str ", ").intercalate (t.columns.map ColumnTree.print) ++ str ")"

def printJoin : Option JoinTree → Text
  | none => []
  | some j =>
    str " INNER JOIN " ++ j.table.text ++ str " ON " ++ j.left.text ++ str " = " ++ j.right.text

def Condition.print (c : Condition) : Text :=
  c.column.text ++ str " " ++ c.op.text ++ str " " ++ c.operand.text

def printConditions (cs : List Condition) : Text :=
  if cs.isEmpty then [] else str " WHERE " ++ (str " AND ").intercalate (cs.map Condition.print)

def printOrder : Option OrderTree → Text
  | none => []
  | some o => str " ORDER BY " ++ o.column.text ++ match o.direction with
    | none => []
    | some d => str " " ++ str d.word

def SelectTree.print (t : SelectTree) : Text :=
  str "SELECT " ++ (str ", ").intercalate (t.items.map Item.text) ++ str " FROM " ++ t.table.text ++
    printJoin t.join ++ printConditions t.conditions ++ printOrder t.order

/-- The canonical text: keywords in capitals and single blanks. -/
def Tree.print : Tree → Text
  | .create t => t.print
  | .delete table => str "DELETE FROM " ++ table.text
  | .select t => t.print

/-! ## The last byte -/

theorem ending_of_isWord (hw : IsWord w) (hsemi : ch ';' ∉ w) : exactly w ≤ ending (isJunk · = false) := by
  intro x hx
  obtain rfl : x = w := hx
  refine ⟨x.getLast hw.ne_nil, List.getLast?_eq_some_getLast hw.ne_nil, ?_⟩
  have hmem := List.getLast_mem hw.ne_nil
  simp only [isJunk, Bool.or_eq_false_iff, decide_eq_false_iff_not]
  exact ⟨fun h => hsemi (h ▸ hmem), hw.noSpace _ hmem⟩

theorem ending_ident (i : Ident) : exactly i.text ≤ ending (isJunk · = false) :=
  ending_of_isWord i.isWord (i.notMem (by decide))

theorem ending_column (col : Column) : exactly col.text ≤ ending (isJunk · = false) :=
  ending_of_isWord col.isWord (col.notMem (by decide) (by decide))

theorem ending_joinTexts (join : Option JoinTree) :
    joinTexts .line join = 1 ∨ joinTexts .line join ≤ ending (isJunk · = false) := by
  cases join with
  | none => exact Or.inl rfl
  | some j => exact Or.inr (mul_le_ending _ (ending_column j.right))

theorem ending_conditionsTexts (cs : List Condition) :
    conditionsTexts .line cs = 1 ∨ conditionsTexts .line cs ≤ ending (isJunk · = false) := by
  cases cs with
  | nil => exact Or.inl rfl
  | cons cond cs =>
    refine Or.inr (mul_le_ending _ (sepBy_le_ending (by simp) ?_))
    intro l hl
    obtain ⟨cond, -, rfl⟩ := List.mem_map.mp hl
    exact mul_le_ending _ (ending_of_isWord cond.operand.isWord fun h => (cond.operand.bytes _ h).2 rfl)

theorem ending_directionTexts (dir : Option Direction) :
    directionTexts .line dir = 1 ∨ directionTexts .line dir ≤ ending (isJunk · = false) := by
  cases dir with
  | none => exact Or.inl rfl
  | some d =>
    refine Or.inr (mul_le_ending _ ?_)
    intro w hw
    refine ending_of_isWord (isWord_keyword hw d.word_mem) ?_ rfl
    intro h
    have hmem : toUpper (ch ';') ∈ str d.word := (show upper w = _ from hw) ▸ List.mem_map_of_mem h
    cases d <;> exact absurd hmem (by decide)

theorem ending_orderTexts (order : Option OrderTree) :
    orderTexts .line order = 1 ∨ orderTexts .line order ≤ ending (isJunk · = false) := by
  cases order with
  | none => exact Or.inl rfl
  | some o =>
    exact Or.inr (mul_le_ending_of_or (mul_le_ending _ (ending_column o.column))
      (ending_directionTexts o.direction))

/-- No sentence ends in white space or in a semicolon. -/
theorem ending_texts (t : Tree) : t.texts .line ≤ ending (isJunk · = false) := by
  cases t with
  | create t =>
    exact mul_le_ending _ (ending_of_isWord ⟨by decide, List.all_iff_forall_prop.mp (by decide)⟩ (by decide))
  | delete table => exact mul_le_ending _ (ending_ident table)
  | select t =>
    exact mul_le_ending_of_or (mul_le_ending_of_or (mul_le_ending_of_or
      (mul_le_ending _ (ending_ident t.table)) (ending_joinTexts t.join))
      (ending_conditionsTexts t.conditions)) (ending_orderTexts t.order)

/-- The parser reads back every sentence that is laid out on a line. -/
theorem parse_texts {t : Tree} (hs : s ∈ t.texts .line) (hclean : dropEnd isJunk s = s) :
    parse s = t.statement := by
  cases t with
  | create t => exact parse_createTexts hs hclean
  | delete table => exact parse_deleteTexts hs hclean
  | select t => exact parse_selectTexts hs hclean

/-- White space and semicolons at the end of a text do not matter. -/
theorem parse_layout {t : Tree} (h : dropEnd isJunk s ∈ t.texts .line) : parse s = t.statement := by
  rw [← parse_dropEnd]
  exact parse_texts h (dropEnd_eq_self fun x hx => getLast?_dropEnd hx)

/-! ## The canonical text is laid out on a line -/

theorem blanked_mem_phrase (ks : List String) : blanked (ks.map str) ∈ Spacing.line.phrase ks := by
  have h := append_mem_mul (append_mem_mul nil_mem_lineGap
    (show blanked (ks.map str) ∈ exactly (blanked (ks.map str)) from rfl)) nil_mem_lineGap
  rw [List.append_nil] at h
  exact h

theorem print_item (item : Item) (hg : g ∈ lineGap) : g ++ item.text ∈ item.texts .line := by
  have h := append_mem_mul (append_mem_mul hg (show item.text ∈ exactly item.text from rfl)) nil_mem_lineGap
  rw [List.append_nil] at h
  exact h

theorem print_items (items : List Item) :
    (str ", ").intercalate (items.map Item.text) ∈ sepBy comma (items.map (Item.texts .line)) := by
  rw [show str ", " = str "," ++ str " " by decide]
  refine (intercalate_mem_sepBy (show str "," ∈ comma from rfl) ?_).1
  rw [List.forall₂_map_left_iff, List.forall₂_map_right_iff, List.forall₂_same]
  exact fun item _ => ⟨print_item item nil_mem_lineGap, print_item item blank_mem_lineGap⟩

theorem print_join (join : Option JoinTree) : printJoin join ∈ joinTexts .line join := by
  cases join with
  | none => rfl
  | some j =>
    have h := append_mem_mul (append_mem_mul (append_mem_mul (append_mem_mul (append_mem_mul (append_mem_mul
      (append_mem_mul (blanked_mem_phrase ["INNER", "JOIN"])
        (show j.table.text ∈ exactly j.table.text from rfl)) (blanked_mem_phrase ["ON"]))
      (show j.left.text ∈ exactly j.left.text from rfl)) blank_mem_lineGap)
      (show str "=" ∈ exactly (str "=") from rfl)) blank_mem_lineGap)
      (show j.right.text ∈ exactly j.right.text from rfl)
    rw [printJoin, show str " INNER JOIN " = blanked (["INNER", "JOIN"].map str) by decide,
      show str " ON " = blanked (["ON"].map str) by decide,
      show str " = " = str " " ++ str "=" ++ str " " by decide]
    simp only [← List.append_assoc]
    exact h

theorem print_condition (cond : Condition) : cond.print ∈ cond.texts .line :=
  append_mem_mul (append_mem_mul (append_mem_mul (append_mem_mul
    (show cond.column.text ∈ exactly cond.column.text from rfl) blank_mem_lineSpace)
    (show cond.op.text ∈ exactly cond.op.text from rfl)) blank_mem_lineSpace)
    (show cond.operand.text ∈ exactly cond.operand.text from rfl)

theorem print_conditions (cs : List Condition) : printConditions cs ∈ conditionsTexts .line cs := by
  cases cs with
  | nil => rfl
  | cons cond cs =>
    rw [printConditions, if_neg (by simp), show str " WHERE " = blanked (["WHERE"].map str) by decide]
    apply append_mem_mul (blanked_mem_phrase ["WHERE"])
    have hand : str " AND " ∈ andTexts .line := by
      rw [show str " AND " = str " " ++ str "AND" ++ str " " by decide]
      exact append_mem_mul (append_mem_mul blank_mem_lineSpace (mem_keyword (by decide))) blank_mem_lineSpace
    rw [← List.append_nil (str " AND ")]
    refine (intercalate_mem_sepBy hand ?_).1
    rw [List.forall₂_map_left_iff, List.forall₂_map_right_iff, List.forall₂_same]
    exact fun cond _ => ⟨print_condition cond, print_condition cond⟩

theorem print_order (order : Option OrderTree) : printOrder order ∈ orderTexts .line order := by
  cases order with
  | none => rfl
  | some o =>
    rw [printOrder, show str " ORDER BY " = blanked (["ORDER", "BY"].map str) by decide]
    apply append_mem_mul (append_mem_mul (blanked_mem_phrase ["ORDER", "BY"])
      (show o.column.text ∈ exactly o.column.text from rfl))
    match o.direction with
    | none => rfl
    | some .asc => exact append_mem_mul blank_mem_space (mem_keyword (by decide))
    | some .desc => exact append_mem_mul blank_mem_lineSpace (mem_keyword (by decide))

theorem print_select (t : SelectTree) : t.print ∈ t.texts .line := by
  rw [SelectTree.print, show str "SELECT " = [] ++ str "SELECT" ++ str " " by decide,
    show str " FROM " = blanked (["FROM"].map str) by decide]
  exact append_mem_mul (append_mem_mul (append_mem_mul (append_mem_mul (append_mem_mul (append_mem_mul
    (append_mem_mul (append_mem_mul nil_mem_gap (mem_keyword (by decide))) blank_mem_lineSpace)
    (print_items t.items)) (blanked_mem_phrase ["FROM"]))
    (show t.table.text ∈ exactly t.table.text from rfl)) (print_join t.join))
    (print_conditions t.conditions)) (print_order t.order)

theorem print_argument (argument : Option Text) :
    (match argument with
      | none => []
      | some ds => str "(" ++ ds ++ str ")") ∈ argumentTexts argument := by
  cases argument with
  | none => rfl
  | some ds =>
    have h := append_mem_mul (append_mem_mul (append_mem_mul (append_mem_mul (append_mem_mul nil_mem_gap
      (show str "(" ∈ exactly (str "(") from rfl)) nil_mem_gap) (show ds ∈ exactly ds from rfl)) nil_mem_gap)
      (show str ")" ∈ exactly (str ")") from rfl)
    simp only [List.append_nil, List.nil_append] at h
    exact h

theorem print_column (col : ColumnTree) (hg : g ∈ gap) : g ++ col.print ∈ col.texts := by
  have hkey : (if col.primaryKey then str " PRIMARY KEY" else []) ∈ keyTexts col.primaryKey := by
    cases col.primaryKey with
    | false => rfl
    | true =>
      change str " PRIMARY KEY" ∈ _
      rw [show str " PRIMARY KEY" = str " " ++ str "PRIMARY" ++ str " " ++ str "KEY" by decide]
      exact append_mem_mul (append_mem_mul (append_mem_mul blank_mem_space (mem_keyword (by decide)))
        blank_mem_space) (mem_keyword (by decide))
  have h := append_mem_mul (append_mem_mul (append_mem_mul (append_mem_mul (append_mem_mul (append_mem_mul hg
    (show col.name.text ∈ exactly col.name.text from rfl)) blank_mem_space)
    (show col.type.name.text ∈ exactly col.type.name.text from rfl)) (print_argument col.type.argument))
    hkey) nil_mem_gap
  rw [List.append_nil] at h
  simp only [ColumnTree.print, TypeTree.print, ← List.append_assoc]
  exact h

theorem print_create (t : CreateTree) : t.print ∈ t.texts := by
  have hflag : (if t.ifNotExists then str "IF NOT EXISTS " else []) ∈ ifNotExistsTexts t.ifNotExists := by
    cases t.ifNotExists with
    | false => rfl
    | true =>
      change str "IF NOT EXISTS " ∈ _
      rw [show str "IF NOT EXISTS " =
        str "IF" ++ str " " ++ str "NOT" ++ str " " ++ str "EXISTS" ++ str " " by decide]
      exact append_mem_mul (append_mem_mul (append_mem_mul (append_mem_mul (append_mem_mul
        (mem_keyword (by decide)) blank_mem_space) (mem_keyword (by decide))) blank_mem_space)
        (mem_keyword (by decide))) blank_mem_space
  have hcolumns : (str ", ").intercalate (t.columns.map ColumnTree.print) ∈
      sepBy comma (t.columns.map ColumnTree.texts) := by
    rw [show str ", " = str "," ++ str " " by decide]
    refine (intercalate_mem_sepBy (show str "," ∈ comma from rfl) ?_).1
    rw [List.forall₂_map_left_iff, List.forall₂_map_right_iff, List.forall₂_same]
    exact fun col _ => ⟨print_column col nil_mem_gap, print_column col blank_mem_space.1⟩
  rw [CreateTree.print, show str "CREATE TABLE " =
    [] ++ str "CREATE" ++ str " " ++ str "TABLE" ++ str " " by decide,
    show str " (" = str " " ++ str "(" by decide]
  simp only [← List.append_assoc]
  exact append_mem_mul (append_mem_mul (append_mem_mul (append_mem_mul (append_mem_mul (append_mem_mul
    (append_mem_mul (append_mem_mul (append_mem_mul (append_mem_mul nil_mem_gap (mem_keyword (by decide)))
    blank_mem_space) (mem_keyword (by decide))) blank_mem_space) hflag)
    (show t.table.text ∈ exactly t.table.text from rfl)) blank_mem_space.1)
    (show str "(" ∈ exactly (str "(") from rfl)) hcolumns) (show str ")" ∈ exactly (str ")") from rfl)

theorem print_mem_texts (t : Tree) : t.print ∈ t.texts .line := by
  cases t with
  | create t => exact print_create t
  | delete table =>
    rw [Tree.print, show str "DELETE FROM " = [] ++ str "DELETE" ++ str " " ++ str "FROM" ++ str " " by decide]
    exact append_mem_mul (append_mem_mul (append_mem_mul (append_mem_mul (append_mem_mul nil_mem_gap
      (mem_keyword (by decide))) blank_mem_space) (mem_keyword (by decide))) blank_mem_space)
      (show table.text ∈ exactly table.text from rfl)
  | select t => exact print_select t

/-! ## The round trip -/

/-- Parsing undoes printing, whatever white space and semicolons follow the text. -/
theorem parse_print (t : Tree) {junk : Text} (hjunk : ∀ b ∈ junk, b = ch ';' ∨ isSpace b = true) :
    parse (t.print ++ junk) = t.statement := by
  have hmem := print_mem_texts t
  obtain ⟨x, hx, hlast⟩ := ending_texts t hmem
  have hlast' : ∀ y, t.print.getLast? = some y → isJunk y = false := by
    intro y hy
    obtain rfl : x = y := by simpa [hx] using hy
    exact hlast
  have hclean : dropEnd isJunk (t.print ++ junk) = t.print :=
    dropEnd_junk (fun b hb => by simpa [isJunk] using hjunk b hb) hlast'
  exact parse_layout (hclean.symm ▸ hmem)

/-- `SELECT T.a, * FROM T INNER JOIN u ON T.a = u.b WHERE a >= 3 AND u.b = ORDER ORDER BY b DESC`. -/
def joinedSelect : Tree :=
  let name (s : String) (h : str s ≠ [] ∧ (∀ b ∈ str s, isNameByte b = true) ∧ upper (str s) ∉ keywords) :
      Ident := ⟨str s, h.1, h.2.1, h.2.2⟩
  let T := name "T" (by decide +kernel)
  let u := name "u" (by decide +kernel)
  let a := name "a" (by decide +kernel)
  let b := name "b" (by decide +kernel)
  .select {
    items := [.column ⟨some T, a⟩, .star]
    items_ne_nil := by simp
    table := T
    join := some ⟨u, ⟨some T, a⟩, ⟨some u, b⟩⟩
    conditions := [⟨⟨none, a⟩, .ge, ⟨str "3", by decide, by decide +kernel⟩⟩,
      ⟨⟨some u, b⟩, .eq, ⟨str "ORDER", by decide, by decide +kernel⟩⟩]
    order := some ⟨⟨none, b⟩, some .desc⟩ }

theorem parse_print_joinedSelect :
    joinedSelect.print ++ str "; \n" = str ("SELECT T.a, * FROM T INNER JOIN u ON T.a = u.b " ++
      "WHERE a >= 3 AND u.b = ORDER ORDER BY b DESC; \n") ∧
    parse (joinedSelect.print ++ str "; \n") =
      { type := .select
        selectStmt := {
          columns := [str "A", str "*"]
          tableName := str "T"
          filters := [⟨str "A", str ">=", str "3"⟩, ⟨str "B", str "=", str "ORDER"⟩]
          join := ⟨str "U", str "A", str "B"⟩
          orderBy := ⟨str "B", false⟩
          hasJoin := true
          hasOrder := true } } := by
  refine ⟨by decide, ?_⟩
  rw [parse_print joinedSelect (by decide +kernel)]
  decide

end FlexQL.Parser
