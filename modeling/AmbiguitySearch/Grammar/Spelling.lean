import AmbiguitySearch.Grammar.Definition

/-!
# Spelling symbols, forms and rules

A form is spelled by the names of its symbols with one space between them, and
the empty form by `epsilon`; a rule is spelled as it is written in a grammar
file. Spelling goes from left to right, so of several unknown symbols the first
is the one that is reported.
-/

namespace AmbiguitySearch.Grammar

def name (g : Grammar) : Symbol → Except OutOfRange String
  | .terminal id => entry g.terminals id
  | .nonterminal id => entry g.nonterminals id

/-- The names of a form, separated by spaces. -/
def spellForm (g : Grammar) : Form → Except OutOfRange String
  | [] => .ok epsilon
  | form => do return " ".intercalate (← form.mapM g.name)

/-- A rule, as `N -> body`. -/
def spellRule (g : Grammar) (nonterminal : Nat) (body : Form) : Except OutOfRange String := do
  let left ← entry g.nonterminals nonterminal
  let right ← g.spellForm body
  return s!"{left} -> {right}"

end AmbiguitySearch.Grammar
