import AmbiguitySearch.Source.Fault
import AmbiguitySearch.Source.Token

/-!
# Lines of a grammar file

A definition is written on one line: a name, an arrow, and alternatives with
bars between them, each of one name or more. A line that is blank or starts
with `;` defines nothing. Of several faults of a line, the one that comes first
in this description is the one that counts; among the alternatives, the one of
the leftmost bad alternative.
-/

namespace AmbiguitySearch

namespace Definition

def alternativeOfTokens : List Token → Except Fault (List String)
  | [] => .error .emptyAlternative
  | tokens => tokens.mapM fun
    | .symbol name => .ok name
    | .arrow => .error .unexpectedArrow
    | .bar => .error .emptyAlternative

/-- The definition that the tokens of a line make. -/
def ofTokens : List Token → Except Fault Definition
  | [] => .error .unexpectedBlankLine
  | .symbol name :: .arrow :: body => do
    let alternatives ← (body.splitOnP (· == .bar)).mapM alternativeOfTokens
    return { name, alternatives }
  | .symbol _ :: _ => .error .missingArrow
  | _ :: _ => .error .missingNonterminal

def toTokens (definition : Definition) : List Token :=
  .symbol definition.name :: .arrow ::
    [Token.bar].intercalate (definition.alternatives.map (·.map .symbol))

/-- The definition on a line of text, if the line is one that defines. -/
def ofLine (line : List Char) : Except Fault (Option Definition) :=
  match Text.skipBlanks line with
  | [] => .ok none
  | ';' :: _ => .ok none
  | _ => (ofTokens (Token.scan line)).map some

end Definition

end AmbiguitySearch
