import AmbiguitySearch.Outcome
import AmbiguitySearch.Report.Table

/-!
# The report on a word

One line says how many derivations a word has and how many forms it took to
find out. A single derivation is shown in full; two are left to the verdict.
-/

namespace AmbiguitySearch

/-- How a number of derivations is put into words. -/
def Derivations.countText (found : Derivations) : String :=
  if found.isAmbiguous then "at least 2 leftmost derivations"
  else if found.count = 1 then "1 leftmost derivation"
  else s!"{found.count} leftmost derivations"

/-- The report on a word and the outcome of its search. -/
def Outcome.report (g : Grammar) (word : Form) (outcome : Outcome) :
    Except RenderError String := do
  let spelled ← RenderError.ofSpelling (g.spellForm word)
  match outcome with
  | .aborted depthLimit => return s!"[{spelled}] {abortMessage depthLimit}\n"
  | .found derivations =>
    let line := s!"[{spelled}] {derivations.countText} ({derivations.explored} forms explored)\n"
    match derivations.witnesses with
    | [only] => return line ++ (← only.table g)
    | _ => return line

end AmbiguitySearch
