import AmbiguitySearch.Derivation
import AmbiguitySearch.Grammar.Spelling
import AmbiguitySearch.Report.RenderError

/-!
# A derivation as a table

A trace is shown in two columns, the forms on the left and on the right the
rule that is applied to each. The last row holds the form that the derivation
ends at. A column is as wide as its widest cell or heading, counted in
characters, and a space on either side. A table whose cells need a wider column
than there can be is not written.
-/

namespace AmbiguitySearch

namespace Report

def formHeading : String := "Derived String"

def ruleHeading : String := "Applied Rule"

/-- What stands in place of a rule beside the last form. -/
def lastRule : String := "Done"

/-- A character several times. -/
def repeated (c : Char) (count : Nat) : String := String.ofList (List.replicate count c)

def stroke (width : Nat) : String := repeated '_' width

/-- A cell filled up with spaces to a width. Nothing is cut off. -/
def padded (width : Nat) (cell : String) : String :=
  cell ++ repeated ' ' (width - cell.length)

/-- The width of the widest of some cells. -/
def widest (cells : List String) : Nat := cells.foldr (fun cell width => max cell.length width) 0

def tableRow (left right : Nat) (cells : String × String) : String :=
  s!"| {padded left cells.1} | {padded right cells.2} |\n"

/-- The line that closes the headings and the table. -/
def tableRule (left right : Nat) : String :=
  s!"|{stroke (left + 2)}|{stroke (right + 2)}|\n"

/-- A table with the headings of a derivation and columns of given widths. -/
def tableOfWidths (left right : Nat) (rows : List (String × String)) : String :=
  let top := s!" {stroke (left + right + 5)} \n"
  let headings := tableRow left right (formHeading, ruleHeading)
  let body := String.join (rows.map (tableRow left right))
  top ++ headings ++ tableRule left right ++ body ++ tableRule left right

/-- A table with columns just wide enough for its cells. -/
def table (rows : List (String × String)) : Except RenderError String :=
  let left := widest (formHeading :: rows.map (·.1))
  let right := widest (ruleHeading :: rows.map (·.2))
  if RenderError.widestColumn < max left right then .error .columnTooWide
  else .ok (tableOfWidths left right rows)

end Report

namespace Trace

/-- The forms of a trace that a step is taken from, each with its step. -/
def stages (trace : Trace) : List (Form × Step) :=
  (trace.start :: trace.steps.map (·.form)).zip trace.steps

def rows (g : Grammar) (trace : Trace) : Except OutOfRange (List (String × String)) := do
  let rows ← trace.stages.mapM fun (form, step) => do
    return (← g.spellForm form, ← g.spellRule step.nonterminal step.body)
  return rows ++ [(← g.spellForm trace.result, Report.lastRule)]

/-- The table of a trace. All cells are spelled before any is measured. -/
def table (g : Grammar) (trace : Trace) : Except RenderError String := do
  Report.table (← RenderError.ofSpelling (trace.rows g))

end Trace

end AmbiguitySearch
