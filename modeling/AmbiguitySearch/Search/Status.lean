import AmbiguitySearch.Grammar.Basic

/-!
# The status of a form

A visited form is the word itself, a dead end, or worth expanding. A form is
called a dead end only when no leftmost derivation can lead from it to the
word, for one of these reasons:

* the word is empty, and some symbol of the form cannot vanish;
* no nonterminal is left, so the form will not change any more;
* the terminals before the first nonterminal, which no step will touch, do not
  begin the word;
* the form holds more symbols that cannot vanish than the word has letters.
-/

namespace AmbiguitySearch

/-- What a form is to the search for a word. -/
inductive Status where
  /-- The form is the word. -/
  | derived
  /-- The form does not lead to the word. -/
  | deadEnd
  /-- The form may lead to the word; its first nonterminal stands at
  `position`. -/
  | live (position nonterminal : Nat)
deriving DecidableEq

namespace Grammar

/-- How many symbols of a form cannot vanish. Each of them yields at least one
letter, so this bounds the length of every word the form leads to. -/
def letters (g : Grammar) (form : Form) : Nat :=
  form.countP fun symbol => !g.isNullable symbol

def status (g : Grammar) (word form : Form) : Status :=
  if form = word then .derived
  else if word.isEmpty && !form.all g.isNullable then .deadEnd
  else
    match form.firstNonterminal? with
    | none => .deadEnd
    | some (position, nonterminal) =>
      if word.length < position then .deadEnd
      else if form.take position ≠ word.take position then .deadEnd
      else if word.length < g.letters form then .deadEnd
      else .live position nonterminal

end Grammar

end AmbiguitySearch
