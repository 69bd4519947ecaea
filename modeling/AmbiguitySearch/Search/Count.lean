import AmbiguitySearch.Search.Machine

/-!
# Counting the derivations of given words

A caller may ask about any words, also of a grammar that declares nothing at
all. Such a grammar still has a start symbol in name, and the search asks for
its facts as soon as a word other than that symbol is sought; the answer is
then that the symbol is out of range.
-/

namespace AmbiguitySearch.Search

variable {σ : Type}

/-- Searches for the derivations of the word, provided that the start symbol is
declared or the word is the start symbol itself. -/
def count (search : Search σ) (source : σ) : Except OutOfRange (Outcome × σ) := do
  if search.start ≠ search.word then
    let _ ← search.grammar.nullability search.grammar.startSymbol
  return search.run source

/-- Counts for several words in turn, the rule order going on from one to the
next. -/
def countEach (grammar : Grammar) (order : RuleOrder σ) (depthLimit : Nat) :
    List Form → σ → Except OutOfRange (List Outcome × σ)
  | [], source => .ok ([], source)
  | word :: words, source => do
    let (outcome, source) ← count { grammar, order, depthLimit, word } source
    let (outcomes, source) ← countEach grammar order depthLimit words source
    return (outcome :: outcomes, source)

end AmbiguitySearch.Search
