import AmbiguitySearch.Proofs.Report.Spelled
import AmbiguitySearch.Proofs.Report.Table

/-!
# Tables are rectangles

The table of a trace has a line for the top, one for the headings, one below them, one for each
step, one for the form that the steps end at and one for the bottom. All of them are of one
length, since each cell is filled up to the width of its column, and no column is wider than it
has to be.

How far a cell can be filled up is not for the table to say. `tableBy` leaves it open, so that
what is said of a table does not depend on there being a widest column: `filling` refuses widths
beyond it and gives the table in use (`table_eq_tableBy`), a `Filling.Total` refuses none.

* `FilledUp`, `Shows`: a cell and a line in which nothing is cut off.
* `Tabulates`: what the lines of a table are, given its cells.
* `Trace.SpelledBy`: what the cells of a trace are, row by row. Nothing is asked of the trace, so
  that its forms need not have anything to do with its rules.

> `Trace.table_rectangular`: the lines of the table of a trace tabulate its cells.
-/

namespace AmbiguitySearch

namespace Report

variable {left right width : Nat} {cell filled line : String} {cells : String × String}
  {rows : List (String × String)}

/-! ## Filling up -/

/-- The cell in full, and spaces behind it up to the width. -/
structure FilledUp (width : Nat) (cell filled : String) : Prop where
  length : filled.length = width
  uncut : ∃ spaces, filled = cell ++ repeated ' ' spaces

/-- A way to fill up a cell to a width, which may refuse to. -/
abbrev Filling := Nat → String → Except RenderError String

/-- Every cell can be filled up to every width. One that is wider than that stays as it is. -/
def Filling.Total (fill : Filling) : Prop :=
  ∀ width cell, ∃ filled, fill width cell = .ok filled ∧
    FilledUp (max width cell.length) cell filled

/-- The way in use. -/
def filling : Filling := fun width cell =>
  if RenderError.widestColumn < width then .error .columnTooWide else .ok (padded width cell)

theorem filledUp_padded (width : Nat) (cell : String) :
    FilledUp (max width cell.length) cell (padded width cell) where
  length := by
    rw [padded, String.length_append, length_repeated]
    omega
  uncut := ⟨_, rfl⟩

theorem filledUp_of_le (h : cell.length ≤ width) : FilledUp width cell (padded width cell) := by
  have hfilled := filledUp_padded width cell
  rwa [Nat.max_eq_left h] at hfilled

theorem Filling.total_padded : Filling.Total fun width cell => .ok (padded width cell) :=
  fun width cell => ⟨_, rfl, filledUp_padded width cell⟩

/-- There is only one way to do so. -/
theorem Filling.Total.eq_padded {fill : Filling} (h : fill.Total) (width : Nat) (cell : String) :
    fill width cell = .ok (padded width cell) := by
  obtain ⟨filled, hfill, hlength, spaces, rfl⟩ := h width cell
  rw [String.length_append, length_repeated] at hlength
  have hspaces : spaces = width - cell.length := by omega
  rw [hfill, hspaces]
  rfl

/-! ## The table, however it is filled up -/

/-- The width of the column of forms. -/
def formWidth (rows : List (String × String)) : Nat := widest (formHeading :: rows.map (·.1))

/-- The width of the column of rules. -/
def ruleWidth (rows : List (String × String)) : Nat := widest (ruleHeading :: rows.map (·.2))

def rowBy (fill : Filling) (left right : Nat) (cells : String × String) :
    Except RenderError String := do
  let form ← fill left cells.1
  let rule ← fill right cells.2
  return s!"| {form} | {rule} |\n"

/-- A table whose cells are filled up in a given way, from the headings down. -/
def tableBy (fill : Filling) (rows : List (String × String)) : Except RenderError String := do
  let left := formWidth rows
  let right := ruleWidth rows
  let headings ← rowBy fill left right (formHeading, ruleHeading)
  let body ← rows.mapM (rowBy fill left right)
  return s!" {stroke (left + right + 5)} \n" ++ headings ++ tableRule left right ++
    String.join body ++ tableRule left right

section Filling

variable {fill : Filling}

theorem rowBy_eq_ok (hleft : ∀ cell, fill left cell = .ok (padded left cell))
    (hright : ∀ cell, fill right cell = .ok (padded right cell)) (cells : String × String) :
    rowBy fill left right cells = .ok (tableRow left right cells) := by
  rw [rowBy, hleft, hright]
  rfl

/-- A table is written if its two columns can be filled up. -/
theorem tableBy_eq_ok
    (hleft : ∀ cell, fill (formWidth rows) cell = .ok (padded (formWidth rows) cell))
    (hright : ∀ cell, fill (ruleWidth rows) cell = .ok (padded (ruleWidth rows) cell)) :
    tableBy fill rows = .ok (tableOfWidths (formWidth rows) (ruleWidth rows) rows) := by
  have hrow := rowBy_eq_ok hleft hright
  have hbody : rows.mapM (rowBy fill (formWidth rows) (ruleWidth rows)) =
      .ok (rows.map (tableRow (formWidth rows) (ruleWidth rows))) := by
    rw [mapM_eq_ok_iff, List.forall₂_map_right_iff, List.forall₂_same]
    exact fun cells _ => hrow cells
  rw [tableBy, hrow, hbody]
  rfl

end Filling

theorem table_eq (rows : List (String × String)) :
    table rows = if RenderError.widestColumn < max (formWidth rows) (ruleWidth rows) then
      .error .columnTooWide else .ok (tableOfWidths (formWidth rows) (ruleWidth rows) rows) :=
  rfl

/-- **The table in use** is the one whose cells are filled up in the way in use. -/
theorem table_eq_tableBy (rows : List (String × String)) : table rows = tableBy filling rows := by
  rw [table_eq]
  by_cases hwide : RenderError.widestColumn < max (formWidth rows) (ruleWidth rows)
  · -- the headings are filled up first, to the same widths as everything else
    have hheadings : rowBy filling (formWidth rows) (ruleWidth rows) (formHeading, ruleHeading) =
        .error .columnTooWide := by
      by_cases hleft : RenderError.widestColumn < formWidth rows
      · rw [rowBy, filling, if_pos hleft]
        rfl
      · have hright : RenderError.widestColumn < ruleWidth rows := by omega
        rw [rowBy, filling, if_neg hleft, filling, if_pos hright]
        rfl
    rw [if_pos hwide, tableBy, hheadings]
    rfl
  · rw [if_neg hwide]
    exact (tableBy_eq_ok (fun cell => if_neg (by omega)) (fun cell => if_neg (by omega))).symm

/-! ## Lines -/

/-- Lines below each other, each with its end. -/
def ofLines (lines : List String) : String := String.join (lines.map (· ++ "\n"))

def topLine (left right : Nat) : String := " " ++ stroke (left + right + 5) ++ " "

/-- The line below the headings and the one at the bottom. -/
def ruleLine (left right : Nat) : String :=
  "|" ++ stroke (left + 2) ++ "|" ++ stroke (right + 2) ++ "|"

def cellLine (left right : Nat) (cells : String × String) : String :=
  "| " ++ padded left cells.1 ++ " | " ++ padded right cells.2 ++ " |"

def tableLines (left right : Nat) (rows : List (String × String)) : List String :=
  topLine left right :: cellLine left right (formHeading, ruleHeading) :: ruleLine left right ::
    (rows.map (cellLine left right) ++ [ruleLine left right])

theorem ofLines_cons (line : String) (lines : List String) :
    ofLines (line :: lines) = line ++ "\n" ++ ofLines lines := by
  rw [ofLines, List.map_cons, String.join_cons]
  rfl

theorem ofLines_append (lines lines' : List String) :
    ofLines (lines ++ lines') = ofLines lines ++ ofLines lines' := by
  rw [ofLines, List.map_append, String.join_append]
  rfl

theorem tableRow_eq_cellLine (left right : Nat) (cells : String × String) :
    tableRow left right cells = cellLine left right cells ++ "\n" := by
  have hend : " |" ++ "\n" = " |\n" := by decide
  rw [tableRow_eq, cellLine]
  simp only [String.append_assoc]
  rw [hend]

theorem tableRule_eq_ruleLine (left right : Nat) :
    tableRule left right = ruleLine left right ++ "\n" := by
  have hend : "|" ++ "\n" = "|\n" := by decide
  rw [tableRule_eq, ruleLine]
  simp only [String.append_assoc]
  rw [hend]

theorem tableOfWidths_eq_ofLines (left right : Nat) (rows : List (String × String)) :
    tableOfWidths left right rows = ofLines (tableLines left right rows) := by
  have htop : topLine left right ++ "\n" = s!" {stroke (left + right + 5)} \n" := by
    have hend : " " ++ "\n" = " \n" := by decide
    rw [topLine, String.append_assoc, hend]
    rfl
  have hbody : String.join (rows.map (tableRow left right)) =
      ofLines (rows.map (cellLine left right)) := by
    rw [ofLines, List.map_map]
    exact congrArg String.join (List.map_congr_left fun cells _ => tableRow_eq_cellLine _ _ cells)
  have hnone : ofLines [] = "" := rfl
  rw [tableLines, ofLines_cons, ofLines_cons, ofLines_cons, ofLines_append, ofLines_cons, hnone,
    String.append_empty, htop, ← hbody, ← tableRow_eq_cellLine, ← tableRule_eq_ruleLine,
    tableOfWidths]
  simp only [String.append_assoc]

theorem length_topLine (left right : Nat) : (topLine left right).length = left + right + 7 := by
  simp only [topLine, String.length_append, length_stroke]
  show 1 + (left + right + 5) + 1 = _
  omega

theorem length_ruleLine (left right : Nat) : (ruleLine left right).length = left + right + 7 := by
  simp only [ruleLine, String.length_append, length_stroke]
  show 1 + (left + 2) + 1 + (right + 2) + 1 = _
  omega

theorem newline_notMem_repeated {c : Char} (h : c ≠ '\n') (count : Nat) :
    '\n' ∉ (repeated c count).toList := by
  intro hmem
  rw [repeated, String.toList_ofList] at hmem
  exact h (List.eq_of_mem_replicate hmem).symm

theorem newline_notMem_stroke (width : Nat) : '\n' ∉ (stroke width).toList :=
  newline_notMem_repeated (by decide) width

theorem newline_notMem_topLine (left right : Nat) : '\n' ∉ (topLine left right).toList := by
  simp [topLine, newline_notMem_stroke]

theorem newline_notMem_ruleLine (left right : Nat) : '\n' ∉ (ruleLine left right).toList := by
  simp [ruleLine, newline_notMem_stroke]

/-! ## Lines that show cells -/

/-- The line shows two cells, each in a column of its own with a space on either side. -/
def Shows (left right : Nat) (cells : String × String) (line : String) : Prop :=
  ∃ form rule, FilledUp left cells.1 form ∧ FilledUp right cells.2 rule ∧
    line = "| " ++ form ++ " | " ++ rule ++ " |"

theorem shows_cellLine (h : FitsRow left right cells) :
    Shows left right cells (cellLine left right cells) :=
  ⟨_, _, filledUp_of_le h.1, filledUp_of_le h.2, rfl⟩

theorem Shows.length (h : Shows left right cells line) : line.length = left + right + 7 := by
  obtain ⟨form, rule, hform, hrule, rfl⟩ := h
  simp only [String.length_append, hform.length, hrule.length]
  show 2 + left + 3 + right + 2 = _
  omega

theorem FilledUp.newline_notMem (h : FilledUp width cell filled) (hcell : '\n' ∉ cell.toList) :
    '\n' ∉ filled.toList := by
  obtain ⟨-, spaces, rfl⟩ := h
  rw [String.toList_append, List.mem_append]
  rintro (hmem | hmem)
  · exact hcell hmem
  · exact newline_notMem_repeated (by decide) spaces hmem

/-- The cells hold no newline. -/
def Unbroken (cells : String × String) : Prop := '\n' ∉ cells.1.toList ∧ '\n' ∉ cells.2.toList

theorem Shows.newline_notMem (h : Shows left right cells line) (hcells : Unbroken cells) :
    '\n' ∉ line.toList := by
  obtain ⟨form, rule, hform, hrule, rfl⟩ := h
  simp [hform.newline_notMem hcells.1, hrule.newline_notMem hcells.2]

/-! ## Rectangles -/

/-- The least width that some cells fit in. -/
structure LeastWidth (cells : List String) (width : Nat) : Prop where
  fits : ∀ cell ∈ cells, cell.length ≤ width
  reached : ∃ cell ∈ cells, cell.length = width

/-- The lines of a table with these cells. -/
structure Tabulates (rows : List (String × String)) (left right : Nat) (lines : List String) :
    Prop where
  left_least : LeastWidth (formHeading :: rows.map Prod.fst) left
  right_least : LeastWidth (ruleHeading :: rows.map Prod.snd) right
  shape : ∃ headings body, Shows left right (formHeading, ruleHeading) headings ∧
    List.Forall₂ (Shows left right) rows body ∧
      lines = topLine left right :: headings :: ruleLine left right ::
        (body ++ [ruleLine left right])
  rectangular : ∀ line ∈ lines, line.length = left + right + 7
  unbroken : ∀ line ∈ lines, '\n' ∉ line.toList

theorem exists_length_eq_widest (first : String) (cells : List String) :
    ∃ cell ∈ first :: cells, cell.length = widest (first :: cells) := by
  induction cells generalizing first with
  | nil => exact ⟨first, List.mem_singleton_self first, (Nat.max_zero _).symm⟩
  | cons second cells ih =>
    have hwidest : widest (first :: second :: cells) =
        max first.length (widest (second :: cells)) := rfl
    rw [hwidest]
    rcases Nat.le_total (widest (second :: cells)) first.length with hle | hle
    · exact ⟨first, List.mem_cons_self .., (Nat.max_eq_left hle).symm⟩
    · obtain ⟨cell, hmem, hlength⟩ := ih second
      exact ⟨cell, List.mem_cons_of_mem _ hmem, hlength.trans (Nat.max_eq_right hle).symm⟩

theorem leastWidth_widest (first : String) (cells : List String) :
    LeastWidth (first :: cells) (widest (first :: cells)) where
  fits _ hmem := length_le_widest hmem
  reached := exists_length_eq_widest first cells

theorem fitsRow_headings (rows : List (String × String)) :
    FitsRow (formWidth rows) (ruleWidth rows) (formHeading, ruleHeading) :=
  ⟨length_le_widest (List.mem_cons_self ..), length_le_widest (List.mem_cons_self ..)⟩

theorem fitsRow_of_mem (h : cells ∈ rows) : FitsRow (formWidth rows) (ruleWidth rows) cells :=
  ⟨length_le_widest (List.mem_cons_of_mem _ (List.mem_map_of_mem h)),
    length_le_widest (List.mem_cons_of_mem _ (List.mem_map_of_mem h))⟩

/-- **The lines of a table are those of a rectangle** around its cells. -/
theorem tabulates_tableLines (h : ∀ cells ∈ rows, Unbroken cells) :
    Tabulates rows (formWidth rows) (ruleWidth rows)
      (tableLines (formWidth rows) (ruleWidth rows) rows) := by
  have hheadings := shows_cellLine (fitsRow_headings rows)
  have hshown : ∀ cells ∈ rows, Shows (formWidth rows) (ruleWidth rows) cells
      (cellLine (formWidth rows) (ruleWidth rows) cells) := fun cells hmem =>
    shows_cellLine (fitsRow_of_mem hmem)
  have hbody : List.Forall₂ (Shows (formWidth rows) (ruleWidth rows)) rows
      (rows.map (cellLine (formWidth rows) (ruleWidth rows))) := by
    rw [List.forall₂_map_right_iff, List.forall₂_same]
    exact hshown
  have hlines : ∀ line ∈ tableLines (formWidth rows) (ruleWidth rows) rows,
      line.length = formWidth rows + ruleWidth rows + 7 ∧ '\n' ∉ line.toList := by
    have hrule := And.intro (length_ruleLine (formWidth rows) (ruleWidth rows))
      (newline_notMem_ruleLine (formWidth rows) (ruleWidth rows))
    simp only [tableLines, List.forall_mem_cons, List.forall_mem_append, List.forall_mem_map]
    refine ⟨⟨length_topLine _ _, newline_notMem_topLine _ _⟩,
      ⟨hheadings.length, hheadings.newline_notMem ⟨by decide, by decide⟩⟩, hrule,
      fun cells hmem => ?_, hrule, nofun⟩
    exact ⟨(hshown cells hmem).length, (hshown cells hmem).newline_notMem (h cells hmem)⟩
  exact {
    left_least := leastWidth_widest _ _
    right_least := leastWidth_widest _ _
    shape := ⟨_, _, hheadings, hbody, rfl⟩
    rectangular := fun line hline => (hlines line hline).1
    unbroken := fun line hline => (hlines line hline).2 }

theorem length_tableLines (left right : Nat) (rows : List (String × String)) :
    (tableLines left right rows).length = rows.length + 4 := by
  simp only [tableLines, List.length_cons, List.length_append, List.length_map, List.length_nil]

end Report

/-! ## Traces -/

namespace Trace

variable {g : Grammar} {trace : Trace} {start : Form} {steps : List Step}
  {rows : List (String × String)}

/-- The cells of a trace: for each step the form before it and the rule that is applied, and at
last the form that the trace ends at. -/
structure SpelledBy (g : Grammar) (trace : Trace) (rows : List (String × String)) : Prop where
  length : rows.length = trace.steps.length + 1
  step : ∀ i step, trace.steps[i]? = some step → ∃ form rule, rows[i]? = some (form, rule) ∧
    g.spellForm (trace.before i) = .ok form ∧ g.spellRule step.nonterminal step.body = .ok rule
  last : ∃ form, rows[trace.steps.length]? = some (form, Report.lastRule) ∧
    g.spellForm trace.result = .ok form

theorem spelledBy_of_rows (h : Trace.rows g ⟨start, steps⟩ = .ok rows) :
    SpelledBy g ⟨start, steps⟩ rows := by
  induction steps generalizing start rows with
  | nil =>
    obtain ⟨text, htext, rfl⟩ := exists_rows_of_start h
    exact ⟨rfl, nofun, text, rfl, htext⟩
  | cons step steps ih =>
    obtain ⟨text, rule, below, htext, hrule, hbelow, rfl⟩ := exists_rows_of_step h
    obtain ⟨hlength, hsteps, form, hform, hlast⟩ := ih hbelow
    refine ⟨congrArg (· + 1) hlength, fun i later hlater => ?_, form, hform, ?_⟩
    · cases i with
      | zero =>
        cases hlater
        exact ⟨text, rule, rfl, htext, hrule⟩
      | succ i =>
        -- the rows below are those of the trace from the next form on
        obtain ⟨form, rule, hcells, hform, hrule⟩ := hsteps i later hlater
        refine ⟨form, rule, hcells, ?_, hrule⟩
        rw [before, List.take_succ_cons, result_cons]
        exact hform
    · rw [result_cons]
      exact hlast

theorem SpelledBy.unbroken (h : trace.SpelledBy g rows) (hg : g.OneLine) :
    ∀ cells ∈ rows, Report.Unbroken cells := by
  intro cells hmem
  obtain ⟨i, hi⟩ := List.getElem?_of_mem hmem
  cases hstep : trace.steps[i]? with
  | some step =>
    obtain ⟨form, rule, hcells, hform, hrule⟩ := h.step i step hstep
    cases hi.symm.trans hcells
    exact ⟨hg.newline_notMem_form hform, hg.newline_notMem_rule hrule⟩
  | none =>
    obtain ⟨form, hcells, hform⟩ := h.last
    have hend : i = trace.steps.length := by
      have hafter := List.getElem?_eq_none_iff.mp hstep
      obtain ⟨hlt, -⟩ := List.getElem?_eq_some_iff.mp hi
      rw [h.length] at hlt
      omega
    subst hend
    have hdone : '\n' ∉ Report.lastRule.toList := by decide
    cases hi.symm.trans hcells
    exact ⟨hg.newline_notMem_form hform, hdone⟩

/-- The table of a trace whose cells are filled up in a given way. -/
def tableBy (fill : Report.Filling) (g : Grammar) (trace : Trace) : Except RenderError String := do
  Report.tableBy fill (← RenderError.ofSpelling (trace.rows g))

/-- **The table of a trace is a rectangle** with everything in it. It has a line for each step and
five more, all of one length. The lines in its body show the form before each step and the rule
applied there, and at last the form that the trace ends at; no cell is cut and no column wider
than it has to be. Such is the table if cells can be filled up to every width, and so is the one
in use as long as its columns are not too wide. -/
theorem table_rectangular (hg : g.OneLine) (htrace : trace.Declared g) {fill : Report.Filling}
    (hfill : fill.Total) :
    (∃ rows left right lines, trace.SpelledBy g rows ∧ Report.Tabulates rows left right lines ∧
      lines.length = trace.steps.length + 5 ∧
      trace.tableBy fill g = .ok (Report.ofLines lines) ∧
      trace.table g = if RenderError.widestColumn < max left right then .error .columnTooWide
        else .ok (Report.ofLines lines)) ∧
      trace.table g = trace.tableBy Report.filling g := by
  obtain ⟨rows, hrows⟩ := htrace.exists_rows
  have hspelled : trace.SpelledBy g rows := spelledBy_of_rows hrows
  have htable : trace.table g = Report.table rows := by
    rw [table, hrows]
    rfl
  have htableBy : ∀ fill, trace.tableBy fill g = Report.tableBy fill rows := by
    intro fill
    rw [tableBy, hrows]
    rfl
  refine ⟨⟨rows, _, _, _, hspelled, Report.tabulates_tableLines (hspelled.unbroken hg), ?_, ?_, ?_⟩,
    ?_⟩
  · rw [Report.length_tableLines, hspelled.length]
  · rw [htableBy, Report.tableBy_eq_ok (hfill.eq_padded _) (hfill.eq_padded _),
      Report.tableOfWidths_eq_ofLines]
  · rw [htable, Report.table_eq, Report.tableOfWidths_eq_ofLines]
  · rw [htable, htableBy, Report.table_eq_tableBy]

/-- A name of sixteen characters, each of them two bytes long. -/
def accented : Grammar := .ofDefinitions [⟨"S", [["éééééééééééééééé", "S"], ["epsilon"]]⟩]

/-- The step leads to a form that no rule makes of the one before. -/
def unfounded : Trace := ⟨[.terminal 0], [⟨0, [], [.nonterminal 0]⟩]⟩

theorem table_rectangular_accented : ∃ lines,
    unfounded.table accented = .ok (Report.ofLines lines) ∧ lines.length = 6 ∧
      (∃ length, ∀ line ∈ lines, line.length = length) ∧ Report.ofLines lines =
        " _________________________________ \n" ++
        "| Derived String   | Applied Rule |\n" ++
        "|__________________|______________|\n" ++
        "| éééééééééééééééé | S -> epsilon |\n" ++
        "| S                | Done         |\n" ++
        "|__________________|______________|\n" := by
  have hg : accented.OneLine := by decide
  have htrace : unfounded.Declared accented := ⟨by decide, by decide, by decide, by decide⟩
  obtain ⟨⟨rows, left, right, lines, -, htabulates, hlength, -, htable⟩, -⟩ :=
    table_rectangular hg htrace Report.Filling.total_padded
  have htext : unfounded.table accented = .ok (
      " _________________________________ \n" ++
      "| Derived String   | Applied Rule |\n" ++
      "|__________________|______________|\n" ++
      "| éééééééééééééééé | S -> epsilon |\n" ++
      "| S                | Done         |\n" ++
      "|__________________|______________|\n") := by
    decide +kernel
  rw [htext] at htable ⊢
  split at htable
  next => cases htable
  next =>
    have hlines := Except.ok.inj htable
    exact ⟨lines, htable, hlength, ⟨_, htabulates.rectangular⟩, hlines.symm⟩

end Trace

end AmbiguitySearch
