import AmbiguitySearch.Proofs.Report.Cells

/-!
# What a table says

A table is a rectangle. Its first line says how many characters a line has, and the line
below the headings where the columns are; from there on everything can be cut out by its
length, and no bar that is part of a name is mistaken for one between columns. A row is not
the line that closes the table, as the one has a space where the other has a stroke. So the
end of a table is found as well, whatever stands behind it (`table_append_inj`).

The cells of a trace are read from above: each row tells of one step and of the form that it
is taken from, and the rows below are those of the rest of the derivation
(`exists_rows_of_step`). In the same way the forms and rules are found that are too long for a
column (`Trace.TooWide`), which alone can keep a table from being written.

> `Trace.table_append_inj`: the table of a trace says which trace it is and where it ends.
-/

namespace AmbiguitySearch

open Source

namespace Report

variable {text text' rest rest' : String} {left right left' right' : Nat}
  {cells cells' : String × String} {rows rows' : List (String × String)}

/-! ## Where a text ends -/

/-- Of two texts that begin alike, those as long as each other are the same. -/
theorem append_inj_of_length (h : text ++ rest = text' ++ rest')
    (hlength : text.length = text'.length) : text = text' ∧ rest = rest' := by
  have hlist : text.toList ++ rest.toList = text'.toList ++ rest'.toList := by
    rw [← String.toList_append, h, String.toList_append]
  rw [← String.length_toList, ← String.length_toList] at hlength
  obtain ⟨htext, hrest⟩ := List.append_inj hlist hlength
  exact ⟨String.toList_inj.mp htext, String.toList_inj.mp hrest⟩

/-- A text of characters of one sort ends where a piece starts with one of another sort. -/
theorem append_inj_of_sort {sort : Char → Bool} {piece : String}
    (hpiece : piece.toList.head?.any (!sort ·) = true) (h : ∀ c ∈ text.toList, sort c = true)
    (h' : ∀ c ∈ text'.toList, sort c = true)
    (heq : text ++ (piece ++ rest) = text' ++ (piece ++ rest')) : text = text' ∧ rest = rest' := by
  have htake : ∀ {text : String} (rest : String), (∀ c ∈ text.toList, sort c = true) →
      (text ++ (piece ++ rest)).toList.takeWhile sort = text.toList := by
    intro text rest htext
    rw [String.toList_append, String.toList_append, List.takeWhile_append_of_pos htext]
    cases hchars : piece.toList with
    | nil =>
      rw [hchars] at hpiece
      cases hpiece
    | cons c tail =>
      have hc : sort c = false := by simpa [hchars] using hpiece
      simp [hc]
  have hchars := htake rest h
  rw [heq, htake rest' h'] at hchars
  obtain rfl := String.toList_inj.mp hchars
  exact ⟨rfl, (String.append_right_inj _).mp ((String.append_right_inj _).mp heq)⟩

/-! ## Lines of a table -/

theorem length_repeated (c : Char) (count : Nat) : (repeated c count).length = count := by
  rw [repeated, String.length_ofList, List.length_replicate]

theorem length_stroke (width : Nat) : (stroke width).length = width := length_repeated '_' width

theorem length_padded {width : Nat} {cell : String} (h : cell.length ≤ width) :
    (padded width cell).length = width := by
  rw [padded, String.length_append, length_repeated]
  omega

/-- A stroke ends where something else stands. -/
theorem stroke_append_inj {piece : String} {width width' : Nat}
    (hpiece : piece.toList.head?.any (!· == '_') = true)
    (h : stroke width ++ (piece ++ rest) = stroke width' ++ (piece ++ rest')) :
    width = width' ∧ rest = rest' := by
  have hsort : ∀ count, ∀ c ∈ (stroke count).toList, (c == '_') = true := by
    intro count c hmem
    rw [stroke, repeated, String.toList_ofList] at hmem
    exact beq_iff_eq.mpr (List.eq_of_mem_replicate hmem)
  obtain ⟨hstroke, hrest⟩ := append_inj_of_sort hpiece (hsort width) (hsort width') h
  have hlength := congrArg String.length hstroke
  rw [length_stroke, length_stroke] at hlength
  exact ⟨hlength, hrest⟩

theorem tableRow_eq (left right : Nat) (cells : String × String) :
    tableRow left right cells =
      "| " ++ (padded left cells.1 ++ (" | " ++ (padded right cells.2 ++ " |\n"))) := by
  simp only [← String.append_assoc]
  rfl

theorem tableRule_eq (left right : Nat) : tableRule left right =
    "|" ++ (stroke (left + 2) ++ ("|" ++ (stroke (right + 2) ++ "|\n"))) := by
  simp only [← String.append_assoc]
  rfl

/-- The cells are no wider than their columns. -/
def FitsRow (left right : Nat) (cells : String × String) : Prop :=
  cells.1.length ≤ left ∧ cells.2.length ≤ right

theorem length_tableRow (h : FitsRow left right cells) :
    (tableRow left right cells).length = left + right + 8 := by
  simp only [tableRow_eq, String.length_append, length_padded h.1, length_padded h.2]
  show 2 + (left + (3 + (right + 3))) = _
  omega

theorem length_tableRule (left right : Nat) : (tableRule left right).length = left + right + 8 := by
  simp only [tableRule_eq, String.length_append, length_stroke]
  show 1 + (left + 2 + (1 + (right + 2 + 2))) = _
  omega

/-- A row starts with a space, the line that closes a table with a stroke. -/
theorem tableRow_ne_tableRule (left right : Nat) (cells : String × String) :
    tableRow left right cells ≠ tableRule left right := by
  intro h
  have hsecond := congrArg (·.toList[1]?) h
  simp [tableRow_eq, tableRule_eq, stroke, repeated, List.replicate_succ] at hsecond

theorem tableRule_inj (h : tableRule left right = tableRule left' right') :
    left = left' ∧ right = right' := by
  rw [tableRule_eq, tableRule_eq, String.append_right_inj] at h
  obtain ⟨hleft, h⟩ := stroke_append_inj (by decide) h
  have hright := congrArg String.length ((String.append_left_inj _).mp h)
  rw [length_stroke, length_stroke] at hright
  omega

/-! ## Rows -/

/-- The words of both cells. -/
def cellWords (cells : String × String) : List String × List String :=
  (wordsOf cells.1.toList, wordsOf cells.2.toList)

theorem cellWords_eq (hfits : FitsRow left right cells) (hfits' : FitsRow left right cells')
    (h : tableRow left right cells = tableRow left right cells') :
    cellWords cells = cellWords cells' := by
  rw [tableRow_eq, tableRow_eq, String.append_right_inj] at h
  obtain ⟨hform, h⟩ :=
    append_inj_of_length h ((length_padded hfits.1).trans (length_padded hfits'.1).symm)
  rw [String.append_right_inj, String.append_left_inj] at h
  refine Prod.ext ?_ ?_
  · show wordsOf cells.1.toList = wordsOf cells'.1.toList
    rw [← wordsOf_padded left, hform, wordsOf_padded]
  · show wordsOf cells.2.toList = wordsOf cells'.2.toList
    rw [← wordsOf_padded right, h, wordsOf_padded]

/-- Rows end at the line that closes the table, each being as long as that. -/
theorem rows_append_inj (hfits : ∀ cells ∈ rows, FitsRow left right cells)
    (hfits' : ∀ cells ∈ rows', FitsRow left right cells)
    (h : String.join (rows.map (tableRow left right)) ++ (tableRule left right ++ rest) =
      String.join (rows'.map (tableRow left right)) ++ (tableRule left right ++ rest')) :
    rows.map cellWords = rows'.map cellWords ∧ rest = rest' := by
  have hlength : ∀ {cells : String × String}, FitsRow left right cells →
      (tableRow left right cells).length = (tableRule left right).length := fun hrow =>
    (length_tableRow hrow).trans (length_tableRule left right).symm
  induction rows generalizing rows' with
  | nil =>
    cases rows' with
    | nil => exact ⟨rfl, (String.append_right_inj _).mp ((String.append_right_inj _).mp h)⟩
    | cons cells' rows' =>
      rw [List.map_nil, List.map_cons, String.join_nil, String.join_cons, String.empty_append,
        String.append_assoc] at h
      have hrow := (List.forall_mem_cons.mp hfits').1
      exact absurd (append_inj_of_length h (hlength hrow).symm).1.symm (tableRow_ne_tableRule _ _ _)
  | cons cells rows ih =>
    obtain ⟨hrow, hfits⟩ := List.forall_mem_cons.mp hfits
    rw [List.map_cons, String.join_cons, String.append_assoc] at h
    cases rows' with
    | nil =>
      rw [List.map_nil, String.join_nil, String.empty_append] at h
      exact absurd (append_inj_of_length h (hlength hrow)).1 (tableRow_ne_tableRule _ _ _)
    | cons cells' rows' =>
      obtain ⟨hrow', hfits'⟩ := List.forall_mem_cons.mp hfits'
      rw [List.map_cons, String.join_cons, String.append_assoc] at h
      obtain ⟨hfirst, h⟩ := append_inj_of_length h ((hlength hrow).trans (hlength hrow').symm)
      obtain ⟨hlater, hrest⟩ := ih hfits hfits' h
      rw [List.map_cons, List.map_cons, cellWords_eq hrow hrow' hfirst, hlater]
      exact ⟨rfl, hrest⟩

/-! ## Tables -/

theorem widest_le_iff {cells : List String} {width : Nat} :
    widest cells ≤ width ↔ ∀ cell ∈ cells, cell.length ≤ width := by
  induction cells with
  | nil => exact iff_of_true (Nat.zero_le width) nofun
  | cons first cells ih =>
    rw [List.forall_mem_cons, ← ih]
    exact Nat.max_le

theorem length_le_widest {cell : String} {cells : List String} (h : cell ∈ cells) :
    cell.length ≤ widest cells :=
  widest_le_iff.mp (Nat.le_refl _) cell h

/-- A table is written with columns that its headings and cells fit in. -/
theorem exists_widths_of_table (h : table rows = .ok text) :
    ∃ left right, FitsRow left right (formHeading, ruleHeading) ∧
      (∀ cells ∈ rows, FitsRow left right cells) ∧ text = tableOfWidths left right rows := by
  unfold table at h
  dsimp only at h
  split at h
  next => cases h
  next =>
    cases h
    refine ⟨_, _, ⟨length_le_widest (List.mem_cons_self ..), length_le_widest (List.mem_cons_self ..)⟩,
      fun cells hmem => ?_, rfl⟩
    exact ⟨length_le_widest (List.mem_cons_of_mem _ (List.mem_map_of_mem hmem)),
      length_le_widest (List.mem_cons_of_mem _ (List.mem_map_of_mem hmem))⟩

/-- **A table is not written** exactly if there is a cell that no column is wide enough for. -/
theorem table_eq_columnTooWide_iff : table rows = .error .columnTooWide ↔
    ∃ cells ∈ rows, ¬ FitsRow RenderError.widestColumn RenderError.widestColumn cells := by
  have hheadings : FitsRow RenderError.widestColumn RenderError.widestColumn
      (formHeading, ruleHeading) := ⟨by decide, by decide⟩
  have hwidths : max (widest (formHeading :: rows.map Prod.fst))
      (widest (ruleHeading :: rows.map Prod.snd)) ≤ RenderError.widestColumn ↔
        ∀ cells ∈ rows, FitsRow RenderError.widestColumn RenderError.widestColumn cells := by
    rw [Nat.max_le, widest_le_iff, widest_le_iff, List.forall_mem_cons, List.forall_mem_cons,
      List.forall_mem_map, List.forall_mem_map]
    exact ⟨fun h cells hmem => ⟨h.1.2 cells hmem, h.2.2 cells hmem⟩, fun h =>
      ⟨⟨hheadings.1, fun cells hmem => (h cells hmem).1⟩, hheadings.2,
        fun cells hmem => (h cells hmem).2⟩⟩
  rw [table]
  split
  next hwide =>
    have hnot := mt hwidths.mpr (Nat.not_le.mpr hwide)
    exact iff_of_true rfl (by simpa using hnot)
  next hfits =>
    have hall := hwidths.mp (Nat.not_lt.mp hfits)
    exact iff_of_false nofun fun ⟨cells, hmem, hnot⟩ => hnot (hall cells hmem)

theorem tableOfWidths_append (left right : Nat) (rows : List (String × String)) (rest : String) :
    tableOfWidths left right rows ++ rest =
      " " ++ (stroke (left + right + 5) ++ (" \n" ++
        (tableRow left right (formHeading, ruleHeading) ++ (tableRule left right ++
          (String.join (rows.map (tableRow left right)) ++ (tableRule left right ++ rest)))))) := by
  simp only [← String.append_assoc]
  rfl

/-- **A table says what its cells are and where it ends.** -/
theorem table_append_inj (h : table rows = .ok text) (h' : table rows' = .ok text')
    (heq : text ++ rest = text' ++ rest') :
    rows.map cellWords = rows'.map cellWords ∧ rest = rest' := by
  obtain ⟨left, right, hheadings, hfits, rfl⟩ := exists_widths_of_table h
  obtain ⟨left', right', hheadings', hfits', rfl⟩ := exists_widths_of_table h'
  rw [tableOfWidths_append, tableOfWidths_append, String.append_right_inj] at heq
  obtain ⟨hwidth, heq⟩ := stroke_append_inj (by decide) heq
  -- the headings need not be looked at, only got over
  have hlength : (tableRow left right (formHeading, ruleHeading)).length =
      (tableRow left' right' (formHeading, ruleHeading)).length := by
    rw [length_tableRow hheadings, length_tableRow hheadings']
    omega
  obtain ⟨-, heq⟩ := append_inj_of_length heq hlength
  have hlength : (tableRule left right).length = (tableRule left' right').length := by
    rw [length_tableRule, length_tableRule]
    omega
  obtain ⟨hrule, heq⟩ := append_inj_of_length heq hlength
  obtain ⟨rfl, rfl⟩ := tableRule_inj hrule
  exact rows_append_inj hfits hfits' heq

end Report

/-! ## Traces -/

theorem RenderError.ofSpelling_eq_ok {α : Type} {spelled : Except OutOfRange α} {value : α}
    (h : ofSpelling spelled = .ok value) : spelled = .ok value := by
  cases spelled with
  | ok found =>
    cases h
    rfl
  | error miss => cases h

namespace Trace

variable {g : Grammar} {start : Form} {steps : List Step} {shown shown' : List (String × String)}

/-- Without a step there is the row of the form that the trace starts from. -/
theorem exists_rows_of_start (h : Trace.rows g ⟨start, []⟩ = .ok shown) :
    ∃ text, g.spellForm start = .ok text ∧ shown = [(text, Report.lastRule)] := by
  obtain ⟨above, habove, h⟩ := bind_eq_ok h
  obtain ⟨text, htext, h⟩ := bind_eq_ok h
  cases habove
  cases h
  exact ⟨text, htext, rfl⟩

/-- The row of a step stands above those of the derivation that follows it. -/
theorem exists_rows_of_step {step : Step} (h : Trace.rows g ⟨start, step :: steps⟩ = .ok shown) :
    ∃ text rule below, g.spellForm start = .ok text ∧
      g.spellRule step.nonterminal step.body = .ok rule ∧
        Trace.rows g ⟨step.form, steps⟩ = .ok below ∧ shown = (text, rule) :: below := by
  have hstages : stages ⟨start, step :: steps⟩ = (start, step) :: stages ⟨step.form, steps⟩ := rfl
  rw [Trace.rows, hstages, result_cons, List.mapM_cons] at h
  obtain ⟨above, habove, h⟩ := bind_eq_ok h
  obtain ⟨last, hlast, h⟩ := bind_eq_ok h
  cases h
  obtain ⟨first, hfirst, h⟩ := bind_eq_ok habove
  obtain ⟨later, hlater, h⟩ := bind_eq_ok h
  cases h
  obtain ⟨text, htext, h⟩ := bind_eq_ok hfirst
  obtain ⟨rule, hrule, h⟩ := bind_eq_ok h
  cases h
  refine ⟨text, rule, later ++ [(last, Report.lastRule)], htext, hrule, ?_, rfl⟩
  rw [Trace.rows, hlater, hlast]
  rfl

theorem rows_ne_nil {trace : Trace} : trace.rows g ≠ .ok [] := by
  intro h
  obtain ⟨start, steps⟩ := trace
  cases steps with
  | nil =>
    obtain ⟨_, -, hnil⟩ := exists_rows_of_start h
    cases hnil
  | cons step steps =>
    obtain ⟨_, _, _, -, -, -, hnil⟩ := exists_rows_of_step h
    cases hnil

/-- One of the forms, or one of the rules applied, is longer than a column can be wide. -/
def TooWide (g : Grammar) (trace : Trace) : Prop :=
  (∃ form ∈ trace.start :: trace.steps.map Step.form, ∃ text,
    g.spellForm form = .ok text ∧ RenderError.widestColumn < text.length) ∨
  ∃ step ∈ trace.steps, ∃ rule,
    g.spellRule step.nonterminal step.body = .ok rule ∧ RenderError.widestColumn < rule.length

theorem tooWide_start {text : String} (htext : g.spellForm start = .ok text) :
    TooWide g ⟨start, []⟩ ↔ RenderError.widestColumn < text.length := by
  simp [TooWide, htext]

theorem tooWide_step {step : Step} {text rule : String} (htext : g.spellForm start = .ok text)
    (hrule : g.spellRule step.nonterminal step.body = .ok rule) :
    TooWide g ⟨start, step :: steps⟩ ↔ (RenderError.widestColumn < text.length ∨
      RenderError.widestColumn < rule.length) ∨ TooWide g ⟨step.form, steps⟩ := by
  simp only [TooWide, List.map_cons, List.exists_mem_cons_iff, htext, hrule, Except.ok.injEq,
    exists_eq_left']
  exact or_or_or_comm

/-- A trace is too wide if a row of its table is. -/
theorem tooWide_iff (h : Trace.rows g ⟨start, steps⟩ = .ok shown) : TooWide g ⟨start, steps⟩ ↔
    ∃ cells ∈ shown, ¬ Report.FitsRow RenderError.widestColumn RenderError.widestColumn cells := by
  have hrow : ∀ text rule : String,
      ¬ Report.FitsRow RenderError.widestColumn RenderError.widestColumn (text, rule) ↔
        RenderError.widestColumn < text.length ∨ RenderError.widestColumn < rule.length := by
    intro text rule
    rw [Report.FitsRow, not_and_or, Nat.not_le, Nat.not_le]
  induction steps generalizing start shown with
  | nil =>
    obtain ⟨text, htext, rfl⟩ := exists_rows_of_start h
    have hdone : ¬ RenderError.widestColumn < Report.lastRule.length := by decide
    rw [tooWide_start htext]
    simp only [List.mem_singleton, exists_eq_left, hrow, or_iff_left hdone]
  | cons step steps ih =>
    obtain ⟨text, rule, below, htext, hrule, hbelow, rfl⟩ := exists_rows_of_step h
    rw [tooWide_step htext hrule, List.exists_mem_cons_iff, hrow]
    exact or_congr_right (ih hbelow)

/-- A table with names for everything is not written if the trace is too wide, and only then. -/
theorem table_eq_columnTooWide_iff {trace : Trace} (h : trace.rows g = .ok shown) :
    trace.table g = .error .columnTooWide ↔ trace.TooWide g := by
  have htable : trace.table g = Report.table shown := by
    rw [table, h]
    rfl
  rw [htable, Report.table_eq_columnTooWide_iff]
  exact (tooWide_iff h).symm

/-- Traces with the same words in their cells are the same, row by row. -/
theorem eq_of_cellWords (hg : g.Legible) {start' : Form} {steps' : List Step}
    (h : Trace.rows g ⟨start, steps⟩ = .ok shown)
    (h' : Trace.rows g ⟨start', steps'⟩ = .ok shown')
    (heq : shown.map Report.cellWords = shown'.map Report.cellWords) :
    start = start' ∧ steps = steps' := by
  induction steps generalizing start start' steps' shown shown' with
  | nil =>
    obtain ⟨text, htext, rfl⟩ := exists_rows_of_start h
    cases steps' with
    | nil =>
      obtain ⟨text', htext', rfl⟩ := exists_rows_of_start h'
      have hwords := congrArg Prod.fst (List.cons.inj heq).1
      exact ⟨hg.form_eq htext htext' hwords, rfl⟩
    | cons step' steps' =>
      -- one row is not two
      obtain ⟨_, _, below, -, -, hbelow, rfl⟩ := exists_rows_of_step h'
      have hnil := (List.cons.inj heq).2.symm
      rw [List.map_eq_nil_iff.mp hnil] at hbelow
      exact absurd hbelow rows_ne_nil
  | cons step steps ih =>
    obtain ⟨text, rule, below, htext, hrule, hbelow, rfl⟩ := exists_rows_of_step h
    cases steps' with
    | nil =>
      obtain ⟨_, -, rfl⟩ := exists_rows_of_start h'
      have hnil := (List.cons.inj heq).2
      rw [List.map_eq_nil_iff.mp hnil] at hbelow
      exact absurd hbelow rows_ne_nil
    | cons step' steps' =>
      obtain ⟨text', rule', below', htext', hrule', hbelow', rfl⟩ := exists_rows_of_step h'
      obtain ⟨hfirst, hlater⟩ := List.cons.inj heq
      have hstart := hg.form_eq htext htext' (congrArg Prod.fst hfirst)
      obtain ⟨hleft, hbody⟩ := hg.rule_eq hrule hrule' (congrArg Prod.snd hfirst)
      obtain ⟨hform, hsteps⟩ := ih hbelow hbelow' hlater
      obtain ⟨nonterminal, body, form⟩ := step
      obtain ⟨nonterminal', body', form'⟩ := step'
      cases hleft
      cases hbody
      cases hform
      exact ⟨hstart, congrArg _ hsteps⟩

/-- **The table of a trace** says which trace it is and where it ends. -/
theorem table_append_inj (hg : g.Legible) {trace trace' : Trace} {text text' rest rest' : String}
    (h : trace.table g = .ok text) (h' : trace'.table g = .ok text')
    (heq : text ++ rest = text' ++ rest') : trace = trace' ∧ rest = rest' := by
  obtain ⟨shown, hshown, h⟩ := bind_eq_ok h
  obtain ⟨shown', hshown', h'⟩ := bind_eq_ok h'
  obtain ⟨hwords, hrest⟩ := Report.table_append_inj h h' heq
  obtain ⟨hstart, hsteps⟩ := eq_of_cellWords hg (RenderError.ofSpelling_eq_ok hshown)
    (RenderError.ofSpelling_eq_ok hshown') hwords
  refine ⟨?_, hrest⟩
  obtain ⟨start, steps⟩ := trace
  obtain ⟨start', steps'⟩ := trace'
  cases hstart
  cases hsteps
  rfl

end Trace

end AmbiguitySearch
