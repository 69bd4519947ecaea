import AmbiguitySearch.Text.Words

/-!
# Tokens

A line of a grammar file is a sequence of words. Two of them are signs, `->`
and `|`; every other word is the name of a symbol. A sign is a sign only when
it stands alone, so `a|b` is one name.
-/

namespace AmbiguitySearch

/-- A word of a grammar file. -/
inductive Token where
  | arrow
  | bar
  | symbol (name : String)
deriving DecidableEq

namespace Token

def ofWord (word : String) : Token :=
  if word = "->" then .arrow else if word = "|" then .bar else .symbol word

def spelling : Token → String
  | .arrow => "->"
  | .bar => "|"
  | .symbol name => name

theorem spelling_ofWord (word : String) : (ofWord word).spelling = word := by
  unfold ofWord
  split
  next sign => exact sign.symm
  next =>
    split
    next sign => exact sign.symm
    next => rfl

/-- The token at the very beginning of a text, and the text after it. A text
that starts with a blank starts with the symbol that has no name. -/
def take (text : List Char) : Token × List Char :=
  let parts := Text.splitWord text
  (ofWord (String.ofList parts.1), parts.2)

def scan (text : List Char) : List Token :=
  (Text.words text).map fun word => ofWord (String.ofList word)

end Token

end AmbiguitySearch
