import AmbiguitySearch.Report.Table
import AmbiguitySearch.Survey

/-!
# The report on a grammar

The verdict of a survey in words. An ambiguous word is shown with both of its
derivations, and a verdict that proves nothing says so.
-/

namespace AmbiguitySearch

def Verdict.report (g : Grammar) : Verdict → Except RenderError String
  | .emptyVocabulary =>
    return "This grammar is trivially ambiguous: it has no terminal vocabulary " ++
      s!"(no terminals and no `{epsilon}` rule).\n"
  | .ambiguous word first second => do
    let spelled ← RenderError.ofSpelling (g.spellForm word)
    let firstTable ← first.table g
    let secondTable ← second.table g
    return s!"Found two leftmost derivations of the word: {spelled}\n" ++
      "The first leftmost derivation is:\n" ++ firstTable ++
      "The second leftmost derivation is:\n" ++ secondTable ++
      "This grammar is ambiguous.\n"
  | .notAmbiguous maxLength wordsTested =>
    return s!"No ambiguity found in {wordsTested} words up to length {maxLength}. " ++
      "Longer words were not tested, so this is not a proof.\n"
  | .inconclusive word depthLimit => do
    let spelled ← RenderError.ofSpelling (g.spellForm word)
    return s!"Inconclusive: the {abortMessage depthLimit} while testing the word: {spelled}\n" ++
      "The recursion depth limit was reached; no ambiguity claim is made.\n"

end AmbiguitySearch
